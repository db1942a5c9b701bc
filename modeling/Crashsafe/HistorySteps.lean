import Crashsafe.History
import Crashsafe.Library.Rows

/- What the reducer accepts, event by event. `StepAdvance` and `RunAdvance` are the moves of
   a step and of a run; the reducer takes an event exactly as one of them. -/
namespace Crashsafe
open Replay Rows

inductive StepAdvance (steps : List StepRecord) (event : WorkflowRunEvent) (step : StepRecord) :
    StepRecord → Prop where
  | attemptStarted (started : StepAttemptStartedPayload)
      (kind : event.eventType = .stepAttemptStarted)
      (payload : event.payload = some (.stepAttemptStarted started))
      (owned : event.schemaVersion = attemptEventSchemaVersion →
        started.workerId.isSome ∧ started.fenceToken.isSome)
      (runnable : step.status ∈ runnableStatuses)
      (number : event.attempt = some (step.attempts + 1))
      (ready : ∀ d ∈ step.dependsOn, d ∈ completedIds steps)
      (operation : started.operation = step.operation)
      (request : started.request.pyEq step.request = true)
      (operationKey : started.operationKey = step.operationKey) :
      StepAdvance steps event step
        { step with
          status := .intentRecorded
          attempts := step.attempts + 1
          nextAttemptAt := none
          lastError := none
          updatedAt := event.occurredAt }
  | retryScheduled (retry : StepRetryScheduledPayload)
      (kind : event.eventType = .stepRetryScheduled)
      (payload : event.payload = some (.stepRetryScheduled retry))
      (active : step.status = .intentRecorded) (number : event.attempt = some step.attempts) :
      StepAdvance steps event step
        { step with
          status := .retryWait
          lastError := some retry.error
          nextAttemptAt := some retry.nextAttemptAt
          updatedAt := event.occurredAt }
  | completed (completed : StepCompletedPayload)
      (kind : event.eventType = .stepCompleted)
      (payload : event.payload = some (.stepCompleted completed))
      (active : step.status = .intentRecorded) (number : event.attempt = some step.attempts) :
      StepAdvance steps event step
        { step with
          status := .completed
          output := some completed.output
          nextAttemptAt := none
          lastError := none
          updatedAt := event.occurredAt
          completedAt := some event.occurredAt }
  | failed (failed : StepFailedPayload)
      (kind : event.eventType = .stepFailed)
      (payload : event.payload = some (.stepFailed failed))
      (active : step.status = .intentRecorded) (number : event.attempt = some step.attempts) :
      StepAdvance steps event step
        { step with
          status := .failed
          lastError := some failed.error
          nextAttemptAt := none
          updatedAt := event.occurredAt }

inductive RunAdvance (run : WorkflowRun) (event : WorkflowRunEvent) : WorkflowRun → Prop where
  | completed (kind : event.eventType = .workflowRunCompleted)
      (payload : event.payload = some .workflowRunCompleted)
      (bare : event.stepId = none ∧ event.attempt = none)
      (all : ∀ step ∈ run.steps, step.status = .completed) :
      RunAdvance run event
        { run with
          status := .completed
          updatedAt := event.occurredAt
          completedAt := some event.occurredAt }
  | failed (failed : WorkflowRunFailedPayload) (step : StepRecord)
      (kind : event.eventType = .workflowRunFailed)
      (payload : event.payload = some (.workflowRunFailed failed))
      (named : event.stepId = some failed.stepId ∧ event.attempt = none)
      (found : findStep run failed.stepId = .ok step)
      (status : step.status = .failed) (error : step.lastError = some failed.error) :
      RunAdvance run event { run with status := .failed, updatedAt := event.occurredAt }
  | step (index : Nat) (step next : StepRecord) (stepId : String)
      (named : event.stepId = some stepId)
      (found : findStepWithIndex run stepId = .ok (index, step))
      (advance : StepAdvance run.steps event step next) :
      RunAdvance run event { run with steps := run.steps.set index next }

/-- The run a creation event starts. -/
def startedRun (runId : String) (event : WorkflowRunEvent) (created : WorkflowRunCreatedPayload) :
    WorkflowRun where
  runId := runId
  name := created.name
  status := .running
  steps := created.steps.map (pendingStep runId event.occurredAt)
  createdAt := event.occurredAt
  updatedAt := event.occurredAt
  completedAt := none

structure IsCreation (runId : String) (event : WorkflowRunEvent)
    (created : WorkflowRunCreatedPayload) : Prop where
  kind : event.eventType = .workflowRunCreated
  payload : event.payload = some (.workflowRunCreated created)
  sequence : event.sequence = 1
  version : event.schemaVersion = workflowRunCreatedSchemaVersion
  bare : event.stepId = none ∧ event.attempt = none
  valid : validateDefinitions runId created.steps = .ok ()

theorem parse_payload_some {t : EventType} {payload : Option EventPayload} {p : EventPayload} :
    parsePayload t payload = some p ↔ payload = some p ∧ p.eventType = t := by
  simp [parsePayload, Option.filter_eq_some_iff]

theorem find_step_with_index_ok {run : WorkflowRun} {stepId : String} {index : Nat}
    {step : StepRecord} (h : findStepWithIndex run stepId = .ok (index, step)) :
    run.steps[index]? = some step ∧ step.id = stepId := by
  unfold findStepWithIndex at h
  split at h
  · rename_i step' index' found
    cases h
    have member := List.mem_of_find?_eq_some found
    have named := List.find?_some found
    exact ⟨List.mem_zipIdx_iff_getElem?.mp member, by simpa using named⟩
  · cases h

theorem find_step_ok {run : WorkflowRun} {stepId : String} {step : StepRecord}
    (h : findStep run stepId = .ok step) : step ∈ run.steps ∧ step.id = stepId := by
  unfold findStep at h
  cases found : findStepWithIndex run stepId with
  | error e => simp [found, Except.map] at h
  | ok indexed =>
    obtain ⟨index, step'⟩ := indexed
    simp only [found, Except.map, Except.ok.injEq] at h
    subst h
    obtain ⟨present, named⟩ := find_step_with_index_ok found
    exact ⟨List.mem_of_getElem? present, named⟩

theorem find_step_exists {run : WorkflowRun} {step : StepRecord} (member : step ∈ run.steps) :
    ∃ index found, findStepWithIndex run step.id = .ok (index, found) := by
  unfold findStepWithIndex
  split
  · exact ⟨_, _, rfl⟩
  · rename_i missing
    obtain ⟨i, present⟩ := List.mem_iff_getElem?.mp member
    have absent := List.find?_eq_none.mp missing (step, i) (List.mem_zipIdx_iff_getElem?.mpr present)
    simp at absent

theorem require_current_attempt_ok {step : StepRecord} {attempt : Int} {status : StepStatus} :
    requireCurrentAttempt step attempt status = .ok () ↔
      step.status = status ∧ step.attempts = attempt := by
  unfold requireCurrentAttempt
  split
  · rename_i mismatch
    simp only [reject, reduceCtorEq, false_iff]
    tauto
  · rename_i matching
    simp only [true_iff]
    tauto

theorem start_attempt_ok {run : WorkflowRun} {event : WorkflowRunEvent} {attempt : Int}
    {step next : StepRecord} {started : StepAttemptStartedPayload}
    (kind : event.eventType = .stepAttemptStarted)
    (payload : event.payload = some (.stepAttemptStarted started))
    (number : event.attempt = some attempt)
    (h : startAttempt run event attempt step started = .ok next) :
    StepAdvance run.steps event step next := by
  unfold startAttempt at h
  split at h
  · cases h
  rename_i owned
  split at h
  · cases h
  rename_i runnable
  split at h
  · cases h
  rename_i consecutive
  split at h
  · cases h
  rename_i ready
  split at h
  · cases h
  rename_i unchanged
  cases h
  simp only [not_or, not_not] at runnable consecutive ready unchanged
  subst consecutive
  refine .attemptStarted started kind payload ?_ runnable number ready unchanged.1 unchanged.2.1
    unchanged.2.2
  intro version
  have both := not_and.mp owned version
  simp only [not_or, Option.isNone_iff_eq_none] at both
  exact ⟨Option.isSome_iff_ne_none.mpr both.1, Option.isSome_iff_ne_none.mpr both.2⟩

theorem advance_step_ok {run : WorkflowRun} {event : WorkflowRunEvent} {attempt : Int}
    {step next : StepRecord} {payload : EventPayload}
    (read : event.payload = some payload) (kind : payload.eventType = event.eventType)
    (number : event.attempt = some attempt)
    (h : advanceStep run event attempt step payload = .ok next) :
    StepAdvance run.steps event step next := by
  cases payload with
  | stepAttemptStarted started => exact start_attempt_ok kind.symm read number h
  | stepRetryScheduled retry =>
    simp only [advanceStep] at h
    split at h
    · cases h
    · rename_i current
      cases h
      obtain ⟨active, same⟩ := require_current_attempt_ok.mp current
      exact .retryScheduled retry kind.symm read active (same ▸ number)
  | stepCompleted completed =>
    simp only [advanceStep] at h
    split at h
    · cases h
    · rename_i current
      cases h
      obtain ⟨active, same⟩ := require_current_attempt_ok.mp current
      exact .completed completed kind.symm read active (same ▸ number)
  | stepFailed failed =>
    simp only [advanceStep] at h
    split at h
    · cases h
    · rename_i current
      cases h
      obtain ⟨active, same⟩ := require_current_attempt_ok.mp current
      exact .failed failed kind.symm read active (same ▸ number)
  | workflowRunCreated created => simp [advanceStep, reject] at h
  | workflowRunCompleted => simp [advanceStep, reject] at h
  | workflowRunFailed failed => simp [advanceStep, reject] at h

theorem complete_run_ok {run next : WorkflowRun} {event : WorkflowRunEvent}
    (kind : event.eventType = .workflowRunCompleted)
    (payload : event.payload = some .workflowRunCompleted)
    (h : completeRun run event = .ok next) : RunAdvance run event next := by
  unfold completeRun at h
  split at h
  · cases h
  rename_i bare
  split at h
  · cases h
  rename_i all
  cases h
  simp only [not_or, Option.not_isSome_iff_eq_none] at bare
  exact .completed kind payload bare (by simpa using all)

theorem fail_run_ok {run next : WorkflowRun} {event : WorkflowRunEvent}
    {failed : WorkflowRunFailedPayload}
    (kind : event.eventType = .workflowRunFailed)
    (payload : event.payload = some (.workflowRunFailed failed))
    (h : failRun run event failed = .ok next) : RunAdvance run event next := by
  unfold failRun at h
  split at h
  · cases h
  rename_i named
  split at h
  · cases h
  rename_i step found
  split at h
  · cases h
  rename_i matching
  cases h
  simp only [not_or, not_not, Option.not_isSome_iff_eq_none] at named matching
  exact .failed failed step kind payload named found matching.1 matching.2

theorem advance_run_ok {run next : WorkflowRun} {event : WorkflowRunEvent} {payload : EventPayload}
    (read : event.payload = some payload) (kind : payload.eventType = event.eventType)
    (h : advanceRun run event payload = .ok next) : RunAdvance run event next := by
  cases payload with
  | workflowRunCompleted => exact complete_run_ok kind.symm read h
  | workflowRunFailed failed => exact fail_run_ok kind.symm read h
  | _ =>
    simp only [advanceRun] at h
    split at h
    · rename_i stepId attempt named number
      split at h
      · cases h
      rename_i index step found
      split at h
      · cases h
      rename_i next' advanced
      cases h
      exact .step index step next' stepId named found (advance_step_ok read kind number advanced)
    · cases h

section Accepting
variable {run : WorkflowRun} {event : WorkflowRunEvent}

theorem start_attempt_accepts {attempt : Int} {step : StepRecord}
    {started : StepAttemptStartedPayload}
    (owned : event.schemaVersion = attemptEventSchemaVersion →
      started.workerId.isSome ∧ started.fenceToken.isSome)
    (runnable : step.status ∈ runnableStatuses) (number : attempt = step.attempts + 1)
    (ready : ∀ d ∈ step.dependsOn, d ∈ completedIds run.steps)
    (unchanged : started.operation = step.operation ∧ started.request.pyEq step.request = true ∧
      started.operationKey = step.operationKey) :
    startAttempt run event attempt step started = .ok
      { step with
        status := .intentRecorded
        attempts := attempt
        nextAttemptAt := none
        lastError := none
        updatedAt := event.occurredAt } := by
  have version : ¬ (event.schemaVersion = attemptEventSchemaVersion ∧
      (started.workerId.isNone ∨ started.fenceToken.isNone)) := by
    rintro ⟨same, missing⟩
    obtain ⟨worker, token⟩ := owned same
    cases h : started.workerId <;> cases h' : started.fenceToken <;> simp_all
  have same : ¬ (started.operation ≠ step.operation ∨ ¬ started.request.pyEq step.request ∨
      started.operationKey ≠ step.operationKey) := by
    simpa using unchanged
  unfold startAttempt
  rw [if_neg version, if_neg (not_not.mpr runnable), if_neg (not_not.mpr number),
    if_neg (not_not.mpr ready), if_neg same]

theorem complete_run_accepts (bare : event.stepId = none ∧ event.attempt = none)
    (all : ∀ step ∈ run.steps, step.status = .completed) :
    completeRun run event = .ok
      { run with
        status := .completed
        updatedAt := event.occurredAt
        completedAt := some event.occurredAt } := by
  have none : ¬ ∃ step ∈ run.steps, step.status ≠ .completed := by simpa using all
  unfold completeRun
  rw [if_neg (by simp [bare]), if_neg none]

theorem fail_run_accepts {failed : WorkflowRunFailedPayload} {step : StepRecord}
    (named : event.stepId = some failed.stepId ∧ event.attempt = none)
    (found : findStep run failed.stepId = .ok step)
    (matching : step.status = .failed ∧ step.lastError = some failed.error) :
    failRun run event failed = .ok { run with status := .failed, updatedAt := event.occurredAt } := by
  unfold failRun
  rw [if_neg (by simp [named]), found]
  simp [matching]

end Accepting

theorem start_run_ok {runId : String} {run : Option WorkflowRun} {event : WorkflowRunEvent}
    {created : WorkflowRunCreatedPayload} {next : WorkflowRun}
    (kind : event.eventType = .workflowRunCreated)
    (payload : event.payload = some (.workflowRunCreated created))
    (h : startRun runId run event created = .ok next) :
    run = none ∧ IsCreation runId event created ∧ next = startedRun runId event created := by
  unfold startRun at h
  split at h
  · cases h
  rename_i first
  split at h
  · cases h
  rename_i version
  split at h
  · cases h
  rename_i bare
  split at h
  · cases h
  rename_i valid
  cases h
  simp only [not_or, not_not, Option.not_isSome_iff_eq_none] at first version bare
  exact ⟨first.1, ⟨kind, payload, first.2, version, bare, valid⟩, rfl⟩

theorem start_run_accepts {runId : String} {event : WorkflowRunEvent}
    {created : WorkflowRunCreatedPayload} (creation : IsCreation runId event created) :
    startRun runId none event created = .ok (startedRun runId event created) := by
  unfold startRun
  rw [if_neg (by simp [creation.sequence]), if_neg (not_not.mpr creation.version),
    if_neg (by simp [creation.bare]), creation.valid]
  rfl

theorem reduce_creation {runId : String} {event : WorkflowRunEvent}
    {created : WorkflowRunCreatedPayload} (sameRun : event.runId = runId)
    (creation : IsCreation runId event created) :
    reduceEvent runId (none, 1) event = .ok (some (startedRun runId event created), 2) := by
  have supported : event.schemaVersion ∈ supportedEventSchemaVersions := by
    rw [creation.version]
    decide
  have parsed : parsePayload event.eventType event.payload = some (.workflowRunCreated created) :=
    parse_payload_some.mpr ⟨creation.payload, creation.kind.symm⟩
  unfold reduceEvent
  rw [if_neg (not_not.mpr sameRun), if_neg (not_not.mpr creation.sequence),
    if_neg (not_not.mpr supported), parsed]
  simp only [start_run_accepts creation, Except.map]
  rfl

/-- Everything an accepted event says: its envelope, and the move it makes. -/
theorem reduce_event_ok {runId : String} {state next : Option WorkflowRun × Int}
    {event : WorkflowRunEvent} (h : reduceEvent runId state event = .ok next) :
    event.runId = runId ∧ event.sequence = state.2 ∧ next.2 = state.2 + 1 ∧
      ∃ run', next.1 = some run' ∧
        ((∃ created, state.1 = none ∧ IsCreation runId event created ∧
            run' = startedRun runId event created) ∨
          ∃ run, state.1 = some run ∧ run.status = .running ∧ RunAdvance run event run') := by
  unfold reduceEvent at h
  split at h
  · cases h
  rename_i sameRun
  split at h
  · cases h
  rename_i inOrder
  split at h
  · cases h
  simp only [not_not] at sameRun inOrder
  split at h
  · cases h
  · rename_i created parsed
    obtain ⟨payload, kind⟩ := parse_payload_some.mp parsed
    cases started : startRun runId state.1 event created with
    | error e => simp [started, Except.map] at h
    | ok run =>
      simp only [started, Except.map, Except.ok.injEq] at h
      subst h
      obtain ⟨first, creation, result⟩ := start_run_ok kind.symm payload started
      exact ⟨sameRun, inOrder, rfl, run, rfl, .inl ⟨created, first, creation, result⟩⟩
  · rename_i payload _ parsed
    obtain ⟨read, kind⟩ := parse_payload_some.mp parsed
    split at h
    · cases h
    rename_i run current
    split at h
    · cases h
    rename_i running
    cases advanced : advanceRun run event payload with
    | error e => simp [advanced, Except.map] at h
    | ok run' =>
      simp only [advanced, Except.map, Except.ok.injEq] at h
      subst h
      exact ⟨sameRun, inOrder, rfl, run', rfl,
        .inr ⟨run, current, by simpa using running, advance_run_ok read kind advanced⟩⟩

theorem settle_ok {run result : WorkflowRun} :
    settle run = .ok result ↔ result = run ∧
      (run.status = .running → (∀ step ∈ run.steps, step.status ≠ .failed) ∧
        ∃ step ∈ run.steps, step.status ≠ .completed) := by
  unfold settle
  split
  · rename_i failed
    obtain ⟨running, step, member, isFailed⟩ := failed
    simp only [reject, reduceCtorEq, false_iff, not_and]
    intro _ settled
    exact (settled running).1 step member isFailed
  split
  · rename_i finished
    simp only [reject, reduceCtorEq, false_iff, not_and]
    intro _ settled
    obtain ⟨step, member, unfinished⟩ := (settled finished.1).2
    exact unfinished (finished.2 step member)
  · rename_i noFailure unfinished
    simp only [Except.ok.injEq]
    constructor
    · rintro rfl
      refine ⟨rfl, fun running => ⟨fun step member isFailed =>
        noFailure ⟨running, step, member, isFailed⟩, ?_⟩⟩
      by_contra none
      push Not at none
      exact unfinished ⟨running, none⟩
    · rintro ⟨rfl, _⟩
      rfl

/-- Accepting a history is folding it to a run that passes the final checks. -/
theorem reduce_history_ok {events : List WorkflowRunEvent} {run : WorkflowRun} :
    reduceWorkflowRunHistory events = .ok run ↔
      ∃ first rest last, events = first :: rest ∧
        foldHistory first.runId events = .ok (some run, last) ∧ settle run = .ok run := by
  cases events with
  | nil => simp [reduceWorkflowRunHistory, reject]
  | cons first rest =>
    simp only [reduceWorkflowRunHistory]
    constructor
    · intro h
      split at h
      · cases h
      · cases h
      · rename_i folded last accepted
        have same := (settle_ok.mp h).1
        subst same
        exact ⟨first, rest, last, rfl, accepted, h⟩
    · rintro ⟨first', rest', last, same, accepted, settled⟩
      cases same
      rw [accepted]
      exact settled

end Crashsafe
