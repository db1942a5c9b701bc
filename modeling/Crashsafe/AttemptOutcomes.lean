import Crashsafe.HistorySoundness

/- How attempts come out. In an accepted history an attempt has at most one outcome, outcomes
   come in the order of the attempts, and a step is COMPLETED or FAILED by one of them. -/
namespace Crashsafe
open Replay Rows

/-- An event of this kind about this step. -/
def isOf (kind : EventType) (stepId : String) (event : WorkflowRunEvent) : Bool :=
  event.eventType = kind ∧ event.stepId = some stepId

def outcomeTypes : List EventType := [.stepRetryScheduled, .stepCompleted, .stepFailed]

def isOutcomeOf (stepId : String) (event : WorkflowRunEvent) : Bool :=
  event.eventType ∈ outcomeTypes ∧ event.stepId = some stepId

def outcomeNumbers (stepId : String) (events : List WorkflowRunEvent) : List (Option Int) :=
  (events.filter (isOutcomeOf stepId)).map (·.attempt)

/-- The numbers are all there and rise from 1 on to below the bound. -/
def RisesBelow (bound : Int) (numbers : List (Option Int)) : Prop :=
  ∃ xs : List Int, numbers = xs.map some ∧ xs.Pairwise (· < ·) ∧ ∀ x ∈ xs, 1 ≤ x ∧ x < bound

/-- The first attempt of the step that no outcome is known of. -/
def StepRecord.undecided (step : StepRecord) : Int :=
  if step.status = .intentRecorded then step.attempts else step.attempts + 1

structure Decided (events : List WorkflowRunEvent) (step : StepRecord) : Prop where
  started : step.status = .intentRecorded → 1 ≤ step.attempts
  outcomes : RisesBelow step.undecided (outcomeNumbers step.id events)
  completed : events.countP (isOf .stepCompleted step.id) = if step.status = .completed then 1 else 0
  failed : events.countP (isOf .stepFailed step.id) = if step.status = .failed then 1 else 0

section Rising
variable {bound bound' x : Int} {numbers : List (Option Int)}

theorem rises_nil : RisesBelow bound [] := ⟨[], rfl, .nil, nofun⟩

theorem rises_further (rises : RisesBelow bound numbers) (le : bound ≤ bound') :
    RisesBelow bound' numbers := by
  obtain ⟨xs, listed, rising, inside⟩ := rises
  refine ⟨xs, listed, rising, fun x member => ?_⟩
  have := inside x member
  omega

theorem rises_snoc (rises : RisesBelow bound numbers) (positive : 1 ≤ x) (above : bound ≤ x) :
    RisesBelow (x + 1) (numbers ++ [some x]) := by
  obtain ⟨xs, rfl, rising, inside⟩ := rises
  refine ⟨xs ++ [x], by simp, List.pairwise_append.mpr ⟨rising, by simp, ?_⟩, ?_⟩
  · intro y member z last
    rw [List.mem_singleton.mp last]
    exact lt_of_lt_of_le (inside y member).2 above
  · intro y member
    rcases List.mem_append.mp member with old | new
    · have := inside y old
      omega
    · rw [List.mem_singleton.mp new]
      omega

theorem rises_sublist {fewer : List (Option Int)} (rises : RisesBelow bound numbers)
    (sub : fewer.Sublist numbers) : RisesBelow bound fewer := by
  obtain ⟨xs, rfl, rising, inside⟩ := rises
  obtain ⟨ys, kept, rfl⟩ := List.sublist_map_iff.mp sub
  exact ⟨ys, rfl, rising.sublist kept, fun y member => inside y (kept.subset member)⟩

end Rising

section Events
variable {stepId : String} {events : List WorkflowRunEvent} {event : WorkflowRunEvent}

theorem outcome_numbers_snoc : outcomeNumbers stepId (events ++ [event]) =
    outcomeNumbers stepId events ++ if isOutcomeOf stepId event then [event.attempt] else [] := by
  simp only [outcomeNumbers, List.filter_append, List.map_append]
  congr 1
  by_cases mine : isOutcomeOf stepId event <;> simp [mine]

theorem not_outcome (other : event.stepId ≠ some stepId ∨ event.eventType ∉ outcomeTypes) :
    isOutcomeOf stepId event = false ∧ isOf .stepCompleted stepId event = false ∧
      isOf .stepFailed stepId event = false := by
  simp only [isOutcomeOf, isOf, outcomeTypes, List.mem_cons, List.not_mem_nil, or_false] at other ⊢
  rcases other with named | kind
  · simp [named]
  · rw [not_or, not_or] at kind
    simp [kind]

theorem decided_other {step : StepRecord} (decided : Decided events step)
    (other : event.stepId ≠ some step.id ∨ event.eventType ∉ outcomeTypes) :
    Decided (events ++ [event]) step := by
  obtain ⟨outcome, completed, failed⟩ := not_outcome other
  refine ⟨decided.started, ?_, ?_, ?_⟩
  · rw [outcome_numbers_snoc]
    simpa [outcome] using decided.outcomes
  · simp [decided.completed, completed]
  · simp [decided.failed, failed]

end Events

section Steps
variable {steps : List StepRecord} {event : WorkflowRunEvent} {step next : StepRecord}
  {events : List WorkflowRunEvent} {stepId : String}

theorem outcome_decided (decided : Decided events step) (active : step.status = .intentRecorded)
    (mine : isOutcomeOf step.id event = true) (number : event.attempt = some step.attempts) :
    RisesBelow (step.attempts + 1) (outcomeNumbers step.id (events ++ [event])) := by
  have before := decided.outcomes
  simp only [StepRecord.undecided, active, ↓reduceIte] at before
  rw [outcome_numbers_snoc, mine, if_pos rfl, number]
  exact rises_snoc before (decided.started active) le_rfl

/-- An event moves its step on from one attempt to the next or decides the attempt under way. -/
theorem advance_decided (advance : StepAdvance steps event step next)
    (named : event.stepId = some step.id) (numbered : Numbered events step)
    (decided : Decided events step) : Decided (events ++ [event]) next := by
  have finished := advance_unfinished advance
  have notCompleted := decided.completed
  have notFailed := decided.failed
  simp only [finished.1, finished.2, ↓reduceIte] at notCompleted notFailed
  cases advance with
  | attemptStarted started kind _ _ runnable =>
    obtain ⟨n, count, _⟩ := numbered
    obtain ⟨outcome, completed, failed⟩ : isOutcomeOf step.id event = false ∧
        isOf .stepCompleted step.id event = false ∧ isOf .stepFailed step.id event = false :=
      not_outcome (.inr (by simp [kind, outcomeTypes]))
    refine ⟨fun _ => ?_, ?_, ?_, ?_⟩
    · change 1 ≤ step.attempts + 1
      omega
    · rw [outcome_numbers_snoc]
      simp only [outcome, StepRecord.undecided, ↓reduceIte, Bool.false_eq_true, List.append_nil]
      apply rises_further decided.outcomes
      unfold StepRecord.undecided
      split <;> omega
    · simp [notCompleted, completed]
    · simp [notFailed, failed]
  | retryScheduled _ kind _ active number =>
    have mine : isOutcomeOf step.id event = true := by simp [isOutcomeOf, kind, outcomeTypes, named]
    have outcomes := outcome_decided decided active mine number
    refine ⟨nofun, outcomes, ?_, ?_⟩
    · simp [notCompleted, isOf, kind]
    · simp [notFailed, isOf, kind]
  | completed _ kind _ active number =>
    have mine : isOutcomeOf step.id event = true := by simp [isOutcomeOf, kind, outcomeTypes, named]
    have outcomes := outcome_decided decided active mine number
    refine ⟨nofun, outcomes, ?_, ?_⟩
    · simp [notCompleted, isOf, kind, named]
    · simp [notFailed, isOf, kind]
  | failed _ kind _ active number =>
    have mine : isOutcomeOf step.id event = true := by simp [isOutcomeOf, kind, outcomeTypes, named]
    have outcomes := outcome_decided decided active mine number
    refine ⟨nofun, outcomes, ?_, ?_⟩
    · simp [notCompleted, isOf, kind]
    · simp [notFailed, isOf, kind, named]

end Steps

/- What the events of a history say about the outcomes of its steps. -/
structure OutcomesKnown (events : List WorkflowRunEvent) (run : WorkflowRun) : Prop where
  decided : ∀ step ∈ run.steps, Decided events step
  named : ∀ e ∈ events, e.eventType ∈ .stepAttemptStarted :: outcomeTypes →
    ∃ step ∈ run.steps, e.stepId = some step.id

section Runs
variable {events : List WorkflowRunEvent} {event : WorkflowRunEvent} {run next : WorkflowRun}
  {runId : String} {created : WorkflowRunCreatedPayload}

theorem started_outcomes (creation : IsCreation runId event created) :
    OutcomesKnown [event] (startedRun runId event created) := by
  refine ⟨fun step member => ?_, fun e member kind => ?_⟩
  · obtain ⟨definition, _, rfl⟩ := List.mem_map.mp member
    obtain ⟨outcome, completed, failed⟩ : isOutcomeOf definition.id event = false ∧
        isOf .stepCompleted definition.id event = false ∧
        isOf .stepFailed definition.id event = false :=
      not_outcome (.inr (by simp [creation.kind, outcomeTypes]))
    refine ⟨nofun, ?_, ?_, ?_⟩
    · simp only [outcomeNumbers, pendingStep, List.filter_singleton, outcome]
      exact rises_nil
    · simp [pendingStep, completed]
    · simp [pendingStep, failed]
  · rw [List.mem_singleton.mp member, creation.kind] at kind
    simp [outcomeTypes] at kind

theorem advance_outcomes (sound : FoldSound created events run) (known : OutcomesKnown events run)
    (advance : RunAdvance run event next) : OutcomesKnown (events ++ [event]) next := by
  have closing : event.eventType ∉ .stepAttemptStarted :: outcomeTypes → next.steps = run.steps →
      OutcomesKnown (events ++ [event]) next := by
    intro other same
    refine ⟨fun step member => ?_, fun e member kind => ?_⟩
    · refine decided_other (known.decided step (same ▸ member)) (.inr fun outcome => ?_)
      exact other (List.mem_cons_of_mem _ outcome)
    · rw [same]
      rcases List.mem_append.mp member with old | new
      · exact known.named e old kind
      · exact absurd (List.mem_singleton.mp new ▸ kind) other
  cases advance with
  | completed kind => exact closing (by simp [kind, outcomeTypes]) rfl
  | failed failed step kind => exact closing (by simp [kind, outcomeTypes]) rfl
  | step index step after stepId named found advance =>
    obtain ⟨present, sameId⟩ := find_step_with_index_ok found
    have inside := List.mem_of_getElem? present
    rw [← sameId] at named
    have moved : after ∈ run.steps.set index after :=
      List.mem_set (List.getElem?_eq_some_iff.mp present).1 after
    refine ⟨fun x member => ?_, fun e member kind => ?_⟩
    · rcases mem_set_step sound.distinct present member with rfl | ⟨old, differs⟩
      · exact advance_decided advance named (sound.numbered step inside) (known.decided step inside)
      · refine decided_other (known.decided x old) (.inl fun same => differs ?_)
        rw [named, Option.some.injEq] at same
        exact same.symm
    · rcases List.mem_append.mp member with old | new
      · obtain ⟨x, there, mine⟩ := known.named e old kind
        by_cases same : x.id = step.id
        · exact ⟨after, moved, by rw [mine, same, advance_keeps_id advance]⟩
        · exact ⟨x, mem_set_other sound.distinct present there same, mine⟩
      · rw [List.mem_singleton.mp new]
        exact ⟨after, moved, by rw [named, advance_keeps_id advance]⟩

theorem fold_outcomes {last : Int} (folded : foldHistory runId events = .ok (some run, last)) :
    OutcomesKnown events run := by
  induction events using List.reverseRecOn generalizing run last with
  | nil => cases folded
  | append_singleton seen e ih =>
    obtain ⟨⟨before, n⟩, earlier, taken⟩ := replay_snoc_ok.mp folded
    obtain ⟨_, _, sound⟩ := fold_state_sound earlier
    obtain ⟨_, _, _, run', result, move⟩ := reduce_event_ok taken
    cases result
    rcases move with ⟨created, first, creation, rfl⟩ | ⟨run₀, rfl, _, advance⟩
    · rw [first] at sound
      subst sound
      exact started_outcomes creation
    · obtain ⟨_, created, sound⟩ := sound
      exact advance_outcomes sound (ih earlier) advance

end Runs

end Crashsafe
