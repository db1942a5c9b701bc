import Crashsafe.HistorySteps

/- What holds of the run rebuilt from any accepted event list, whoever wrote the list. -/
namespace Crashsafe
open Replay Rows

/-- The immutable part of a step, as the creation event snapshots it. -/
def snapshot (step : StepRecord) : StepDefinition where
  id := step.id
  position := step.position
  operation := step.operation
  dependsOn := step.dependsOn
  request := step.request
  operationKey := step.operationKey
  toolKey := step.toolKey

def isAttemptOf (stepId : String) (event : WorkflowRunEvent) : Bool :=
  event.eventType = .stepAttemptStarted ∧ event.stepId = some stepId

def attemptNumbers (stepId : String) (events : List WorkflowRunEvent) : List (Option Int) :=
  (events.filter (isAttemptOf stepId)).map (·.attempt)

def IsTerminal (event : WorkflowRunEvent) : Prop :=
  event.eventType = .workflowRunCompleted ∨ event.eventType = .workflowRunFailed

/-- `attempts` counts the step's attempt events, which carry 1, 2, ... in order. -/
def Numbered (events : List WorkflowRunEvent) (step : StepRecord) : Prop :=
  ∃ n : Nat, step.attempts = n ∧
    attemptNumbers step.id events = (numbering n).map some

structure FieldsMatchStatus (step : StepRecord) : Prop where
  output : step.output.isSome ↔ step.status = .completed
  completedAt : step.completedAt.isSome ↔ step.status = .completed
  nextAttemptAt : step.nextAttemptAt.isSome ↔ step.status = .retryWait
  lastError : step.lastError.isSome ↔ step.status = .retryWait ∨ step.status = .failed

/-- The first event is the only creation and every terminal event is the last one. -/
structure WellBracketed (created : WorkflowRunCreatedPayload) (events : List WorkflowRunEvent) :
    Prop where
  creation : ∃ first rest, events = first :: rest ∧ IsCreation first.runId first created ∧
    ∀ e ∈ rest, e.eventType ≠ .workflowRunCreated
  terminal : ∀ before e after, events = before ++ e :: after → IsTerminal e → after = []

/- The invariant of the fold; it speaks of runs whose final checks are still to come. -/
structure FoldSound (created : WorkflowRunCreatedPayload) (events : List WorkflowRunEvent)
    (run : WorkflowRun) : Prop where
  runIds : ∀ e ∈ events, e.runId = run.runId
  stepRunIds : ∀ step ∈ run.steps, step.runId = run.runId
  snapshots : run.steps.map snapshot = created.steps
  distinct : (run.steps.map (·.id)).Nodup
  numbered : ∀ step ∈ run.steps, Numbered events step
  fields : ∀ step ∈ run.steps, FieldsMatchStatus step
  ready : ∀ step ∈ run.steps, step.status ≠ .pending →
    ∀ d ∈ step.dependsOn, d ∈ completedIds run.steps
  completed : run.status = .completed → ∀ step ∈ run.steps, step.status = .completed
  failed : run.status = .failed → ∃ step ∈ run.steps, step.status = .failed
  bracketed : WellBracketed created events
  open_end : run.status = .running → ∀ e ∈ events, ¬ IsTerminal e

theorem completed_ids_mem {steps : List StepRecord} {d : String} :
    d ∈ completedIds steps ↔ ∃ step ∈ steps, step.status = .completed ∧ step.id = d := by
  simp [completedIds, and_assoc]

theorem attempt_numbers_snoc (stepId : String) (events : List WorkflowRunEvent)
    (event : WorkflowRunEvent) :
    attemptNumbers stepId (events ++ [event]) =
      attemptNumbers stepId events ++ if isAttemptOf stepId event then [event.attempt] else [] := by
  simp only [attemptNumbers, List.filter_append, List.map_append]
  congr 1
  by_cases h : isAttemptOf stepId event <;> simp [h]

theorem attempt_numbers_other {stepId : String} {events : List WorkflowRunEvent}
    {event : WorkflowRunEvent} (other : isAttemptOf stepId event = false) :
    attemptNumbers stepId (events ++ [event]) = attemptNumbers stepId events := by
  simp [attempt_numbers_snoc, other]

theorem numbered_other {events : List WorkflowRunEvent} {event : WorkflowRunEvent}
    {step : StepRecord} (h : Numbered events step) (other : isAttemptOf step.id event = false) :
    Numbered (events ++ [event]) step := by
  obtain ⟨n, count, numbers⟩ := h
  exact ⟨n, count, by rw [attempt_numbers_other other, numbers]⟩

theorem well_bracketed_snoc {created : WorkflowRunCreatedPayload} {events : List WorkflowRunEvent}
    {event : WorkflowRunEvent} (h : WellBracketed created events)
    (later : event.eventType ≠ .workflowRunCreated) (open_end : ∀ e ∈ events, ¬ IsTerminal e) :
    WellBracketed created (events ++ [event]) := by
  obtain ⟨first, rest, shape, creation, only⟩ := h.creation
  constructor
  · refine ⟨first, rest ++ [event], by simp [shape], creation, ?_⟩
    intro e member
    rcases List.mem_append.mp member with old | new
    · exact only e old
    · rw [List.mem_singleton.mp new]
      exact later
  · intro before e after split terminal
    rcases List.eq_nil_or_concat after with empty | ⟨front, last, shape'⟩
    · exact empty
    · subst shape'
      have cut : events ++ [event] = (before ++ e :: front) ++ [last] := by simpa using split
      have same := (List.append_inj' cut rfl).1
      exact absurd terminal (open_end e (by simp [same]))

section StepMoves
variable {steps : List StepRecord} {event : WorkflowRunEvent} {step next : StepRecord}

theorem advance_keeps_snapshot (h : StepAdvance steps event step next) :
    snapshot next = snapshot step := by
  cases h <;> rfl

theorem advance_keeps_id (h : StepAdvance steps event step next) : next.id = step.id := by
  cases h <;> rfl

theorem advance_keeps_run (h : StepAdvance steps event step next) : next.runId = step.runId := by
  cases h <;> rfl

theorem advance_keeps_depends (h : StepAdvance steps event step next) :
    next.dependsOn = step.dependsOn := by
  cases h <;> rfl

theorem advance_unfinished (h : StepAdvance steps event step next) :
    step.status ≠ .completed ∧ step.status ≠ .failed := by
  cases h with
  | attemptStarted _ _ _ _ runnable =>
    simp only [runnableStatuses, List.mem_cons, List.not_mem_nil, or_false] at runnable
    rcases runnable with h | h | h <;> simp [h]
  | retryScheduled _ _ _ active => simp [active]
  | completed _ _ _ active => simp [active]
  | failed _ _ _ active => simp [active]

theorem advance_kind (h : StepAdvance steps event step next) :
    event.eventType ≠ .workflowRunCreated ∧ ¬ IsTerminal event := by
  cases h with
  | attemptStarted _ kind | retryScheduled _ kind | completed _ kind | failed _ kind =>
    simp [IsTerminal, kind]

theorem advance_fields (h : StepAdvance steps event step next) (fields : FieldsMatchStatus step) :
    FieldsMatchStatus next := by
  have unfinished := advance_unfinished h
  have noOutput : step.output.isSome = false := by
    simpa using mt fields.output.mp unfinished.1
  have notCompleted : step.completedAt.isSome = false := by
    simpa using mt fields.completedAt.mp unfinished.1
  cases h <;> constructor <;> simp_all

theorem advance_numbered {events : List WorkflowRunEvent} {stepId : String}
    (h : StepAdvance steps event step next) (named : event.stepId = some stepId)
    (same : step.id = stepId) (numbered : Numbered events step) : Numbered (events ++ [event]) next := by
  obtain ⟨n, count, numbers⟩ := numbered
  cases h with
  | attemptStarted _ kind _ _ _ number =>
    have mine : isAttemptOf step.id event = true := by simp [isAttemptOf, kind, named, same]
    refine ⟨n + 1, by simp [count], ?_⟩
    rw [attempt_numbers_snoc]
    simp [numbers, mine, number, count, numbering_succ]
  | retryScheduled _ kind | completed _ kind | failed _ kind =>
    have other : isAttemptOf step.id event = false := by simp [isAttemptOf, kind]
    exact ⟨n, count, by rw [attempt_numbers_other other, numbers]⟩

/-- Starting an attempt needs the dependencies; the other moves continue an attempt. -/
theorem advance_ready (h : StepAdvance steps event step next)
    (ready : step.status ≠ .pending → ∀ d ∈ step.dependsOn, d ∈ completedIds steps) :
    ∀ d ∈ step.dependsOn, d ∈ completedIds steps := by
  cases h with
  | attemptStarted _ _ _ _ _ _ ready' => exact ready'
  | retryScheduled _ _ _ active | completed _ _ _ active | failed _ _ _ active =>
    exact ready (by simp [active])

end StepMoves

section Replacing
variable {steps : List StepRecord} {i : Nat} {step next : StepRecord}

theorem mem_set_step (distinct : (steps.map (·.id)).Nodup) (present : steps[i]? = some step)
    {x : StepRecord} (member : x ∈ steps.set i next) :
    x = next ∨ (x ∈ steps ∧ x.id ≠ step.id) := by
  rw [set_eq_updateWhere distinct present, mem_updateWhere] at member
  obtain ⟨old, inside, eq⟩ := member
  split at eq
  · exact Or.inl eq.symm
  · rename_i other
    subst eq
    exact Or.inr ⟨inside, by simpa using other⟩

theorem map_set_step {β : Type} (f : StepRecord → β) (present : steps[i]? = some step)
    (same : f next = f step) : (steps.set i next).map f = steps.map f := by
  rw [List.map_set, same]
  refine List.ext_getElem? fun j => ?_
  rw [List.getElem?_set]
  split
  · rename_i here
    subst here
    obtain ⟨inside, value⟩ := List.getElem?_eq_some_iff.mp present
    simp [inside, value]
  · rfl

theorem mem_set_other (distinct : (steps.map (·.id)).Nodup) (present : steps[i]? = some step)
    {x : StepRecord} (member : x ∈ steps) (differs : x.id ≠ step.id) : x ∈ steps.set i next := by
  rw [set_eq_updateWhere distinct present, mem_updateWhere]
  exact ⟨x, member, by simp [differs]⟩

theorem completed_ids_set (distinct : (steps.map (·.id)).Nodup) (present : steps[i]? = some step)
    (unfinished : step.status ≠ .completed) {d : String}
    (done : d ∈ completedIds steps) : d ∈ completedIds (steps.set i next) := by
  obtain ⟨x, member, completed, named⟩ := completed_ids_mem.mp done
  refine completed_ids_mem.mpr ⟨x, ?_, completed, named⟩
  have other : x ≠ step := fun eq => unfinished (eq ▸ completed)
  apply mem_set_other distinct present member
  intro eq
  exact other (List.inj_on_of_nodup_map distinct member (List.mem_of_getElem? present) eq)

end Replacing

section Fold
variable {created : WorkflowRunCreatedPayload} {events : List WorkflowRunEvent} {runId : String}
  {run next : WorkflowRun} {event : WorkflowRunEvent}

theorem valid_ids_distinct {definitions : List StepDefinition}
    (h : validateDefinitions runId definitions = .ok ()) : (definitions.map (·.id)).Nodup := by
  unfold validateDefinitions at h
  dsimp only at h
  split at h
  · cases h
  split at h
  · cases h
  split at h
  · cases h
  · rename_i distinct
    simpa using distinct

theorem started_run_sound (sameRun : event.runId = runId)
    (creation : IsCreation runId event created) :
    FoldSound created [event] (startedRun runId event created) := by
  have ids : (startedRun runId event created).steps.map (·.id) = created.steps.map (·.id) := by
    simp [startedRun, pendingStep]
  constructor
  · simpa [startedRun] using sameRun
  · simp [startedRun, pendingStep]
  · simp [startedRun, pendingStep, snapshot, Function.comp_def]
  · rw [ids]
    exact valid_ids_distinct creation.valid
  · intro step member
    obtain ⟨definition, _, rfl⟩ := List.mem_map.mp member
    exact ⟨0, rfl, by simp [attemptNumbers, isAttemptOf, creation.kind]⟩
  · intro step member
    obtain ⟨definition, _, rfl⟩ := List.mem_map.mp member
    constructor <;> simp [pendingStep]
  · intro step member notPending
    obtain ⟨definition, _, rfl⟩ := List.mem_map.mp member
    simp [pendingStep] at notPending
  · simp [startedRun]
  · simp [startedRun]
  · refine ⟨⟨event, [], rfl, sameRun ▸ creation, by simp⟩, ?_⟩
    intro before e after split terminal
    rcases List.append_eq_singleton_iff.mp split.symm with ⟨_, same⟩ | ⟨_, same⟩
    · exact (List.cons.inj same).2
    · simp at same
  · simp [IsTerminal, creation.kind]

/-- One accepted event keeps the invariant: one case for each kind of move. -/
theorem advance_run_sound (sameRun : event.runId = run.runId) (running : run.status = .running)
    (h : FoldSound created events run) (move : RunAdvance run event next) :
    FoldSound created (events ++ [event]) next := by
  have runIds : ∀ e ∈ events ++ [event], e.runId = run.runId := by
    intro e member
    rcases List.mem_append.mp member with old | new
    · exact h.runIds e old
    · rw [List.mem_singleton.mp new]
      exact sameRun
  have openEnd := h.open_end running
  cases move with
  | completed kind payload bare all =>
    refine ⟨runIds, h.stepRunIds, h.snapshots, h.distinct, ?_, h.fields, h.ready, fun _ => all,
      by simp, well_bracketed_snoc h.bracketed (by simp [kind]) openEnd, by simp⟩
    exact fun step member => numbered_other (h.numbered step member) (by simp [isAttemptOf, kind])
  | failed failed step kind payload named found status error =>
    refine ⟨runIds, h.stepRunIds, h.snapshots, h.distinct, ?_, h.fields, h.ready, by simp,
      fun _ => ⟨step, (find_step_ok found).1, status⟩,
      well_bracketed_snoc h.bracketed (by simp [kind]) openEnd, by simp⟩
    exact fun step member => numbered_other (h.numbered step member) (by simp [isAttemptOf, kind])
  | step index step step' stepId named found advance =>
    obtain ⟨present, sameId⟩ := find_step_with_index_ok found
    have member := List.mem_of_getElem? present
    have kind := advance_kind advance
    have unfinished := (advance_unfinished advance).1
    have notOther : ∀ x : StepRecord, x.id ≠ step.id → isAttemptOf x.id event = false := by
      intro x differs
      have : ¬ step.id = x.id := fun eq => differs eq.symm
      simp [isAttemptOf, named, ← sameId, this]
    have keepsReady : ∀ x : StepRecord, (∀ d ∈ x.dependsOn, d ∈ completedIds run.steps) →
        ∀ d ∈ x.dependsOn, d ∈ completedIds (run.steps.set index step') :=
      fun x ready d inside => completed_ids_set h.distinct present unfinished (ready d inside)
    constructor
    · exact runIds
    · intro x inside
      rcases mem_set_step h.distinct present inside with rfl | ⟨old, _⟩
      · rw [advance_keeps_run advance]
        exact h.stepRunIds step member
      · exact h.stepRunIds x old
    · exact (map_set_step snapshot present (advance_keeps_snapshot advance)).trans h.snapshots
    · rw [map_set_step (·.id) present (advance_keeps_id advance)]
      exact h.distinct
    · intro x inside
      rcases mem_set_step h.distinct present inside with rfl | ⟨old, differs⟩
      · exact advance_numbered advance named sameId (h.numbered step member)
      · exact numbered_other (h.numbered x old) (notOther x differs)
    · intro x inside
      rcases mem_set_step h.distinct present inside with rfl | ⟨old, _⟩
      · exact advance_fields advance (h.fields step member)
      · exact h.fields x old
    · intro x inside notPending
      rcases mem_set_step h.distinct present inside with rfl | ⟨old, _⟩
      · rw [advance_keeps_depends advance]
        exact keepsReady step (advance_ready advance (h.ready step member))
      · exact keepsReady x (h.ready x old notPending)
    · intro completed
      rw [show run.status = _ from completed] at running
      cases running
    · intro failed
      rw [show run.status = _ from failed] at running
      cases running
    · exact well_bracketed_snoc h.bracketed kind.1 openEnd
    · intro _ e inside
      rcases List.mem_append.mp inside with old | new
      · exact openEnd e old
      · rw [List.mem_singleton.mp new]
        exact kind.2

/-- The state of the fold after any accepted events: nothing yet, or a sound run and the
    sequence number that comes next. -/
def FoldState (runId : String) (events : List WorkflowRunEvent) (state : Option WorkflowRun × Int) :
    Prop :=
  state.2 = events.length + 1 ∧
  events.map (·.sequence) = numbering events.length ∧
  match state.1 with
  | none => events = []
  | some run => run.runId = runId ∧ ∃ created, FoldSound created events run

theorem fold_state_sound {state : Option WorkflowRun × Int}
    (accepted : foldHistory runId events = .ok state) : FoldState runId events state := by
  refine replay_invariant (P := FoldState runId) ⟨by simp, by simp, rfl⟩ ?_ accepted
  intro seen e before after ⟨expected, sequences, folded⟩ taken
  obtain ⟨sameRun, inOrder, advanced, run', result, move⟩ := reduce_event_ok taken
  refine ⟨by simp [advanced, expected], ?_, ?_⟩
  · simp [sequences, inOrder, expected, numbering_succ]
  rw [result]
  rcases move with ⟨created, first, creation, rfl⟩ | ⟨run, current, running, advance⟩
  · rw [first] at folded
    subst folded
    exact ⟨rfl, created, started_run_sound sameRun creation⟩
  · rw [current] at folded
    obtain ⟨named, created, sound⟩ := folded
    have kept : run'.runId = run.runId := by cases advance <;> rfl
    exact ⟨kept.trans named, created, advance_run_sound (sameRun.trans named.symm) running sound advance⟩

/-- The events that leave a step with a status. -/
inductive Reaches : EventType → StepStatus → Prop where
  | attemptStarted : Reaches .stepAttemptStarted .intentRecorded
  | retryScheduled : Reaches .stepRetryScheduled .retryWait
  | completed : Reaches .stepCompleted .completed
  | failed : Reaches .stepFailed .failed

theorem reaches_final {kind : EventType} {status : StepStatus} (reaches : Reaches kind status)
    (final : kind = .stepCompleted ∨ kind = .stepFailed) : status = .completed ∨ status = .failed := by
  cases reaches <;> simp at final ⊢

theorem advance_reaches {steps : List StepRecord} {step after : StepRecord}
    (advance : StepAdvance steps event step after) : Reaches event.eventType after.status := by
  cases advance with
  | attemptStarted _ kind | retryScheduled _ kind | completed _ kind | failed _ kind =>
    rw [kind]
    constructor

/-- A step that has started has an event that led to its status. -/
theorem status_from_event {last : Int} (folded : foldHistory runId events = .ok (some run, last))
    {step : StepRecord} (member : step ∈ run.steps) (started : step.status ≠ .pending) :
    ∃ e ∈ events, Reaches e.eventType step.status ∧ e.stepId = some step.id := by
  induction events using List.reverseRecOn generalizing run last with
  | nil => cases folded
  | append_singleton seen e ih =>
    obtain ⟨⟨before, n⟩, earlier, taken⟩ := replay_snoc_ok.mp folded
    have state := fold_state_sound earlier
    obtain ⟨_, _, _, run', result, move⟩ := reduce_event_ok taken
    cases result
    have old : ∀ run₀, before = some run₀ → step ∈ run₀.steps →
        ∃ e' ∈ seen ++ [e], Reaches e'.eventType step.status ∧ e'.stepId = some step.id := by
      rintro run₀ rfl inside
      obtain ⟨e', there, reaches⟩ := ih earlier inside
      exact ⟨e', List.mem_append_left _ there, reaches⟩
    rcases move with ⟨created, _, _, rfl⟩ | ⟨run₀, current, _, advance⟩
    · obtain ⟨d, _, rfl⟩ := List.mem_map.mp member
      exact absurd rfl started
    · cases advance with
      | completed => exact old run₀ current member
      | failed => exact old run₀ current member
      | step index before' next name named found advance =>
        obtain ⟨_, _, sound⟩ := state
        rw [current] at sound
        obtain ⟨_, _, sound⟩ := sound
        obtain ⟨present, sameId⟩ := find_step_with_index_ok found
        rcases mem_set_step sound.distinct present member with rfl | ⟨inside, _⟩
        · exact ⟨e, by simp, advance_reaches advance, by rw [named, advance_keeps_id advance, sameId]⟩
        · exact old run₀ current inside

/-- A step that an event has completed or failed stays so. -/
theorem final_from_event {last : Int} (folded : foldHistory runId events = .ok (some run, last))
    {e : WorkflowRunEvent} {stepId : String} (member : e ∈ events) (named : e.stepId = some stepId)
    (final : e.eventType = .stepCompleted ∨ e.eventType = .stepFailed) :
    ∃ step ∈ run.steps, step.id = stepId ∧ Reaches e.eventType step.status := by
  induction events using List.reverseRecOn generalizing run last with
  | nil => cases folded
  | append_singleton seen x ih =>
    obtain ⟨⟨before, n⟩, earlier, taken⟩ := replay_snoc_ok.mp folded
    have state := fold_state_sound earlier
    obtain ⟨_, _, _, run', result, move⟩ := reduce_event_ok taken
    cases result
    rcases move with ⟨created, first, creation, rfl⟩ | ⟨run₀, rfl, _, advance⟩
    · obtain ⟨_, _, none⟩ := state
      rw [first] at none
      subst none
      rw [List.mem_singleton.mp member, creation.kind] at final
      simp at final
    · obtain ⟨_, _, _, _, sound⟩ := state
      have known : e ∈ seen → ∃ step ∈ run₀.steps, step.id = stepId ∧
          Reaches e.eventType step.status := fun old => ih earlier old
      cases advance with
      | completed kind =>
        apply (List.mem_append.mp member).elim known
        intro new
        rw [List.mem_singleton.mp new, kind] at final
        simp at final
      | failed failed step kind =>
        apply (List.mem_append.mp member).elim known
        intro new
        rw [List.mem_singleton.mp new, kind] at final
        simp at final
      | step index old next name named' found advance =>
        obtain ⟨present, sameId⟩ := find_step_with_index_ok found
        have unfinished := advance_unfinished advance
        rcases List.mem_append.mp member with early | new
        · obtain ⟨step, inside, mine, reaches⟩ := known early
          refine ⟨step, mem_set_other sound.distinct present inside fun same => ?_, mine, reaches⟩
          obtain rfl := List.inj_on_of_nodup_map sound.distinct inside (List.mem_of_getElem? present) same
          exact (reaches_final reaches final).elim unfinished.1 unfinished.2
        · obtain rfl := List.mem_singleton.mp new
          rw [named, Option.some.injEq] at named'
          exact ⟨next, List.mem_set (List.getElem?_eq_some_iff.mp present).1 next,
            by rw [advance_keeps_id advance, sameId, named'], advance_reaches advance⟩

end Fold

/-- What an accepted history guarantees about the run it rebuilds. -/
structure ReducedSound (events : List WorkflowRunEvent) (run : WorkflowRun) : Prop where
  completed_iff : run.status = .completed ↔ ∀ step ∈ run.steps, step.status = .completed
  failed_iff : run.status = .failed ↔ ∃ step ∈ run.steps, step.status = .failed
  dependencies : ∀ step ∈ run.steps, step.status ≠ .pending →
    ∀ d ∈ step.dependsOn, ∃ dep ∈ run.steps, dep.id = d ∧ dep.status = .completed
  attempts : ∀ step ∈ run.steps,
    step.attempts = (attemptNumbers step.id events).length ∧
      attemptNumbers step.id events =
        (numbering (attemptNumbers step.id events).length).map some
  fields : ∀ step ∈ run.steps, FieldsMatchStatus step
  snapshots : ∃ first rest created, events = first :: rest ∧
    IsCreation first.runId first created ∧ run.steps.map snapshot = created.steps ∧
    ∀ e ∈ rest, e.eventType ≠ .workflowRunCreated
  terminal_last : ∀ before e after, events = before ++ e :: after → IsTerminal e → after = []

theorem sound_run_nonempty {created : WorkflowRunCreatedPayload} {events : List WorkflowRunEvent}
    {run : WorkflowRun} (h : FoldSound created events run) : run.steps ≠ [] := by
  intro empty
  obtain ⟨first, rest, _, creation, _⟩ := h.bracketed.creation
  have none : created.steps = [] := by simpa [empty] using h.snapshots.symm
  have valid := creation.valid
  rw [none] at valid
  simp [validateDefinitions, reject] at valid

theorem numbered_count {events : List WorkflowRunEvent} {step : StepRecord}
    (h : Numbered events step) :
    step.attempts = (attemptNumbers step.id events).length ∧
      attemptNumbers step.id events =
        (numbering (attemptNumbers step.id events).length).map some := by
  obtain ⟨n, count, numbers⟩ := h
  have length : (attemptNumbers step.id events).length = n := by simp [numbers]
  rw [length]
  exact ⟨count, numbers⟩

theorem reduced_history_sound {events : List WorkflowRunEvent} {run : WorkflowRun}
    (accepted : reduceWorkflowRunHistory events = .ok run) : ReducedSound events run := by
  obtain ⟨first, rest, last, shape, folded, settled⟩ := reduce_history_ok.mp accepted
  obtain ⟨_, _, _, created, sound⟩ := fold_state_sound folded
  have final := (settle_ok.mp settled).2
  have allCompleted : (∀ step ∈ run.steps, step.status = .completed) → run.status = .completed := by
    intro all
    obtain ⟨step, member⟩ := List.exists_mem_of_ne_nil _ (sound_run_nonempty sound)
    cases status : run.status with
    | completed => rfl
    | running =>
      obtain ⟨step, member, unfinished⟩ := (final status).2
      exact absurd (all step member) unfinished
    | failed =>
      obtain ⟨step, member, isFailed⟩ := sound.failed status
      simp [all step member] at isFailed
  have someFailed : (∃ step ∈ run.steps, step.status = .failed) → run.status = .failed := by
    rintro ⟨step, member, isFailed⟩
    cases status : run.status with
    | failed => rfl
    | running => exact absurd isFailed ((final status).1 step member)
    | completed => simp [sound.completed status step member] at isFailed
  obtain ⟨first', rest', shape', creation, only⟩ := sound.bracketed.creation
  refine ⟨⟨sound.completed, allCompleted⟩, ⟨sound.failed, someFailed⟩, ?_,
    fun step member => numbered_count (sound.numbered step member), sound.fields,
    ⟨first', rest', created, shape', creation, sound.snapshots, only⟩, sound.bracketed.terminal⟩
  intro step member notPending d inside
  obtain ⟨dep, present, completed, named⟩ :=
    completed_ids_mem.mp (sound.ready step member notPending d inside)
  exact ⟨dep, present, named, completed⟩

section Example

def chargeRequest : Json := .obj [("amount_cents", .num 2500), ("customer_id", .str "c-1")]

def onboardingSteps (runId : String) : List StepDefinition :=
  [{ id := "charge", position := 0, operation := .charge, dependsOn := [], request := chargeRequest,
     operationKey := s!"{runId}:charge", toolKey := "mock-tool" },
   { id := "provision", position := 1, operation := .provision, dependsOn := ["charge"],
     request := .obj [("customer_id", .str "c-1"), ("plan", .str "standard")],
     operationKey := s!"{runId}:provision", toolKey := "mock-tool" }]

/- A run whose first step has completed and whose second waits for its turn. -/
def chargedHistory : List WorkflowRunEvent :=
  [{ runId := "r", sequence := 1, eventType := .workflowRunCreated, schemaVersion := 3,
     stepId := none, attempt := none, occurredAt := 0,
     payload := some (.workflowRunCreated { name := "paid", steps := onboardingSteps "r" }) },
   { runId := "r", sequence := 2, eventType := .stepAttemptStarted, schemaVersion := 2,
     stepId := some "charge", attempt := some 1, occurredAt := 1,
     payload := some (.stepAttemptStarted
       { operation := .charge, request := chargeRequest, operationKey := "r:charge",
         workerId := some "worker-1", fenceToken := some 1 }) },
   { runId := "r", sequence := 3, eventType := .stepCompleted, schemaVersion := 1,
     stepId := some "charge", attempt := some 1, occurredAt := 2,
     payload := some (.stepCompleted { output := .obj [("reference_id", .str "charge_1")] }) }]

theorem charged_history_sound : ∃ run, reduceWorkflowRunHistory chargedHistory = .ok run ∧
    ReducedSound chargedHistory run :=
  ⟨_, rfl, reduced_history_sound rfl⟩

end Example

end Crashsafe
