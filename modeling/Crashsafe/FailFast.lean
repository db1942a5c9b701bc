import Crashsafe.HistorySoundness

/- A failed step ends its run. The reducer finds out only after the last event, so the events
   of another branch can come between the two that fail_step writes together. -/
namespace Crashsafe
open Replay Rows

section Fold
variable {runId : String} {events : List WorkflowRunEvent} {run : WorkflowRun} {last : Int}

/-- A step is FAILED exactly when a StepFailed event names it. -/
theorem failed_iff_event (folded : foldHistory runId events = .ok (some run, last)) (stepId : String) :
    (∃ step ∈ run.steps, step.id = stepId ∧ step.status = .failed) ↔
      ∃ e ∈ events, e.eventType = .stepFailed ∧ e.stepId = some stepId := by
  constructor
  · rintro ⟨step, member, rfl, failed⟩
    obtain ⟨e, there, reaches, named⟩ := status_from_event folded member (by simp [failed])
    rw [failed] at reaches
    generalize kind : e.eventType = k at reaches
    cases reaches
    exact ⟨e, there, kind, named⟩
  · rintro ⟨e, there, kind, named⟩
    obtain ⟨step, member, same, reaches⟩ := final_from_event folded there named (.inr kind)
    rw [kind] at reaches
    generalize status : step.status = st at reaches
    cases reaches
    exact ⟨step, member, same, status⟩

end Fold

/-- The ending that fail_step writes: the failure of a step, then that of the run. -/
structure EndsInFailure (events : List WorkflowRunEvent) (run : WorkflowRun)
    (failure : WorkflowRunEvent) : Prop where
  ending : ∃ before last, events = before ++ [failure, last] ∧
    last.eventType = .workflowRunFailed ∧ last.stepId = failure.stepId ∧
    ∀ e ∈ before, e.eventType ≠ .stepFailed
  step : ∃ step, run.steps.filter (·.status = .failed) = [step] ∧ failure.stepId = some step.id

def FailFast (events : List WorkflowRunEvent) (run : WorkflowRun) : Prop :=
  ∀ e ∈ events, e.eventType = .stepFailed → EndsInFailure events run e

section Ending
variable {events before after : List WorkflowRunEvent} {e next : WorkflowRunEvent} {run : WorkflowRun}

/-- After the first failure of a step, an event without an attempt number is the last one. -/
theorem first_failure_ends (accepted : reduceWorkflowRunHistory events = .ok run)
    (split : events = before ++ e :: after) (kind : e.eventType = .stepFailed)
    (first : ∀ x ∈ before, x.eventType ≠ .stepFailed)
    (bare : ∀ next rest, after = next :: rest → next.attempt = none) : EndsInFailure events run e := by
  obtain ⟨head, tail, n, _, folded, settled⟩ := reduce_history_ok.mp accepted
  obtain ⟨_, _, _, _, sound⟩ := fold_state_sound folded
  have shape : events = (before ++ [e]) ++ after := by simpa using split
  rw [shape] at folded
  obtain ⟨⟨state, k⟩, failing, later⟩ := replay_append_ok.mp folded
  obtain ⟨⟨_, _⟩, _, taken⟩ := replay_snoc_ok.mp failing
  obtain ⟨_, _, _, run₁, result, move⟩ := reduce_event_ok taken
  cases result
  -- The only failed step is the one that the first failure names.
  have only : ∀ stepId, (∃ step ∈ run₁.steps, step.id = stepId ∧ step.status = .failed) ↔
      e.stepId = some stepId := by
    intro stepId
    rw [failed_iff_event failing]
    constructor
    · rintro ⟨x, member, failed, named⟩
      rcases List.mem_append.mp member with old | new
      · exact absurd failed (first x old)
      · rwa [List.mem_singleton.mp new] at named
    · exact fun named => ⟨e, by simp, kind, named⟩
  obtain ⟨stepId, named, running⟩ : ∃ stepId, e.stepId = some stepId ∧ run₁.status = .running := by
    rcases move with ⟨created, _, creation, _⟩ | ⟨run₀, _, running, advance⟩
    · simp [creation.kind] at kind
    · cases advance with
      | completed kind' | failed _ _ kind' => simp [kind'] at kind
      | step _ _ _ stepId named => exact ⟨stepId, named, running⟩
  obtain ⟨failed, member, sameId, isFailed⟩ := (only stepId).mpr named
  cases after with
  | nil =>
    cases later
    exact absurd isFailed (((settle_ok.mp settled).2 running).1 failed member)
  | cons next rest =>
    obtain ⟨⟨_, _⟩, taken, later⟩ := replay_cons_ok.mp later
    obtain ⟨_, _, _, run₂, result, move⟩ := reduce_event_ok taken
    cases result
    rcases move with ⟨_, none, _⟩ | ⟨_, current, _, advance⟩
    · cases none
    cases current
    cases advance with
    | completed _ _ _ all => simp [all failed member] at isFailed
    | failed payload other kind' _ named' found status =>
      obtain rfl : rest = [] :=
        sound.bracketed.terminal (before ++ [e]) next rest shape (.inr kind')
      cases later
      obtain ⟨present, same⟩ := find_step_ok found
      have here := (only payload.stepId).mp ⟨other, present, same, status⟩
      refine ⟨⟨before, next, by simpa using shape, kind', named'.1.trans here.symm, first⟩,
        failed, ?_, by rw [named, sameId]⟩
      have alone : ∀ step ∈ run₁.steps, step.status = .failed ↔ step.id = failed.id := by
        intro step inside
        constructor
        · intro isFailed'
          have again := (only step.id).mp ⟨step, inside, rfl, isFailed'⟩
          rw [named, Option.some.injEq] at again
          exact again.symm.trans sameId.symm
        · intro same
          rw [List.inj_on_of_nodup_map sound.distinct inside member same]
          exact isFailed
      calc run₁.steps.filter (·.status = .failed)
          = ofKey (·.id) failed.id run₁.steps :=
            List.filter_congr fun step inside => decide_eq_decide.mpr (alone step inside)
        _ = [failed] := ofKey_unique sound.distinct member
    | step _ _ _ _ _ _ advance =>
      have bare := bare next rest rfl
      cases advance with
      | attemptStarted _ _ _ _ _ number | retryScheduled _ _ _ _ number
      | completed _ _ _ _ number | failed _ _ _ _ number => simp [bare] at number

/-- A run-level event is the only one without an attempt number. -/
theorem run_failed_bare (accepted : reduceWorkflowRunHistory events = .ok run)
    (member : e ∈ events) (kind : e.eventType = .workflowRunFailed) : e.attempt = none := by
  obtain ⟨head, tail, n, _, folded, _⟩ := reduce_history_ok.mp accepted
  obtain ⟨before, after, shape⟩ := List.append_of_mem member
  rw [show events = (before ++ [e]) ++ after by simpa using shape] at folded
  obtain ⟨_, taken, _⟩ := replay_append_ok.mp folded
  obtain ⟨_, _, taken⟩ := replay_snoc_ok.mp taken
  obtain ⟨_, _, _, _, _, move⟩ := reduce_event_ok taken
  rcases move with ⟨_, _, creation, _⟩ | ⟨_, _, _, advance⟩
  · simp [creation.kind] at kind
  · cases advance with
    | completed kind' => simp [kind'] at kind
    | failed _ _ _ _ named => exact named.2
    | step _ _ _ _ _ _ advance =>
      cases advance with
      | attemptStarted _ kind' | retryScheduled _ kind' | completed _ kind' | failed _ kind' =>
        simp [kind'] at kind

/-- The events that come right after a failure. -/
def NoBranchAfterFailure (events : List WorkflowRunEvent) : Prop :=
  events.IsChain fun e next => e.eventType = .stepFailed → next.attempt = none

/-- An accepted history fails fast unless an event of a step comes right after a failure. -/
theorem fail_fast_iff (accepted : reduceWorkflowRunHistory events = .ok run) :
    FailFast events run ↔ NoBranchAfterFailure events := by
  unfold NoBranchAfterFailure
  rw [List.isChain_iff_forall_rel_of_append_cons_cons]
  constructor
  · intro fast e next before after split kind
    obtain ⟨⟨front, last, shape, kind', _, none⟩, _⟩ := fast e (by simp [split]) kind
    refine run_failed_bare accepted (by simp [split]) ?_
    rw [split] at shape
    rcases List.append_eq_append_iff.mp shape with ⟨middle, cut, rest⟩ | ⟨middle, cut, rest⟩
    · cases middle with
      | nil =>
        obtain ⟨_, rfl, _⟩ : e = e ∧ next = last ∧ after = [] := by simpa using rest
        exact kind'
      | cons first middle =>
        obtain rfl := (List.cons.inj rest).1
        exact absurd kind (none e (by simp [cut]))
    · have short := congrArg List.length rest
      simp only [List.length_cons, List.length_nil, List.length_append] at short
      obtain rfl := List.length_eq_zero_iff.mp (show middle.length = 0 by omega)
      obtain ⟨_, rfl, _⟩ : e = e ∧ last = next ∧ after = [] := by simpa using rest
      exact kind'
  · intro bare e member kind
    have some : (events.find? fun x => x.eventType = .stepFailed).isSome :=
      List.find?_isSome.mpr ⟨e, member, by simpa using kind⟩
    obtain ⟨e₀, found⟩ := Option.isSome_iff_exists.mp some
    obtain ⟨kind₀, before, after, split, none⟩ := List.find?_eq_some_iff_append.mp found
    simp only [decide_eq_true_eq] at kind₀
    have ends : EndsInFailure events run e₀ := by
      refine first_failure_ends accepted split kind₀ (by simpa using none) fun next rest shape => ?_
      exact bare (shape ▸ split) kind₀
    obtain ⟨front, last, shape, kind', _, none'⟩ := ends.ending
    have same : e = e₀ := by
      rw [shape, List.mem_append, List.mem_cons, List.mem_singleton] at member
      rcases member with old | same | rfl
      · exact absurd kind (none' e old)
      · exact same
      · simp [kind'] at kind
    rwa [same]

end Ending

section Example

def branch (stepId : String) (position : Int) : StepDefinition where
  id := stepId
  position := position
  operation := .charge
  dependsOn := []
  request := chargeRequest
  operationKey := s!"r:{stepId}"
  toolKey := "mock-tool"

def attemptOf (stepId : String) (sequence : Int) : WorkflowRunEvent where
  runId := "r"
  sequence := sequence
  eventType := .stepAttemptStarted
  schemaVersion := 1
  stepId := some stepId
  attempt := some 1
  occurredAt := sequence
  payload := some (.stepAttemptStarted
    { operation := .charge, request := chargeRequest, operationKey := s!"r:{stepId}",
      workerId := none, fenceToken := none })

/- Both branches are in flight when the first is declined; the second completes before the
   run is closed. -/
def lateBranchHistory : List WorkflowRunEvent :=
  [{ runId := "r", sequence := 1, eventType := .workflowRunCreated, schemaVersion := 3,
     stepId := none, attempt := none, occurredAt := 1,
     payload := some (.workflowRunCreated { name := "pair", steps := [branch "a" 0, branch "b" 1] }) },
   attemptOf "a" 2, attemptOf "b" 3,
   { runId := "r", sequence := 4, eventType := .stepFailed, schemaVersion := 1,
     stepId := some "a", attempt := some 1, occurredAt := 4,
     payload := some (.stepFailed { error := "declined" }) },
   { runId := "r", sequence := 5, eventType := .stepCompleted, schemaVersion := 1,
     stepId := some "b", attempt := some 1, occurredAt := 5,
     payload := some (.stepCompleted { output := .obj [("reference_id", .str "charge_1")] }) },
   { runId := "r", sequence := 6, eventType := .workflowRunFailed, schemaVersion := 1,
     stepId := some "a", attempt := none, occurredAt := 6,
     payload := some (.workflowRunFailed { stepId := "a", error := "declined" }) }]

theorem late_branch_accepted : ∃ run, reduceWorkflowRunHistory lateBranchHistory = .ok run ∧
    ¬ FailFast lateBranchHistory run := by
  refine ⟨_, rfl, fun fast => ?_⟩
  obtain ⟨⟨before, last, shape, _⟩, _⟩ := fast _ (List.getElem_mem (n := 3) (by decide)) rfl
  have shape := (List.take_append_drop 4 lateBranchHistory).trans shape
  have lasts := (List.append_inj' shape rfl).2
  have same := congrArg (·.eventType) (List.cons.inj lasts).1
  cases same

/- The same run as fail_step leaves it. -/
def declinedHistory : List WorkflowRunEvent :=
  lateBranchHistory.take 4 ++
    [{ runId := "r", sequence := 5, eventType := .workflowRunFailed, schemaVersion := 1,
       stepId := some "a", attempt := none, occurredAt := 4,
       payload := some (.workflowRunFailed { stepId := "a", error := "declined" }) }]

theorem declined_fails_fast : ∃ run, reduceWorkflowRunHistory declinedHistory = .ok run ∧
    FailFast declinedHistory run :=
  ⟨_, rfl, (fail_fast_iff rfl).mpr (by unfold NoBranchAfterFailure; decide)⟩

end Example

end Crashsafe
