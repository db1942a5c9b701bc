import Crashsafe.Models
import Crashsafe.Library.Replay

/- The strict reducer: one run's events folded into its projection. Every rejection carries
   the message of the HistoryIntegrityError the source raises. -/
namespace Crashsafe

structure HistoryIntegrityError where
  message : String
  deriving DecidableEq, Repr

def reject {α : Type} (message : String) : Except HistoryIntegrityError α := .error ⟨message⟩

def eventSchemaVersion : Int := 1
def attemptEventSchemaVersion : Int := 2
def workflowRunCreatedSchemaVersion : Int := 3

def supportedEventSchemaVersions : List Int :=
  [eventSchemaVersion, attemptEventSchemaVersion, workflowRunCreatedSchemaVersion]

def parsePayload (eventType : EventType) (payload : Option EventPayload) : Option EventPayload :=
  payload.filter fun p => p.eventType = eventType

def requireCurrentAttempt (step : StepRecord) (attempt : Int) (expected : StepStatus) :
    Except HistoryIntegrityError Unit :=
  if step.status ≠ expected ∨ step.attempts ≠ attempt then
    reject "event does not match the current step attempt"
  else .ok ()

def findStepWithIndex (run : WorkflowRun) (stepId : String) :
    Except HistoryIntegrityError (Nat × StepRecord) :=
  match run.steps.zipIdx.find? fun indexed => indexed.1.id = stepId with
  | some (step, index) => .ok (index, step)
  | none => reject s!"event refers to unknown step {stepId}"

def findStep (run : WorkflowRun) (stepId : String) : Except HistoryIntegrityError StepRecord :=
  (findStepWithIndex run stepId).map Prod.snd

def checkDefinition (runId : String) (known : List String) (definition : StepDefinition) :
    Except HistoryIntegrityError Unit :=
  if definition.operationKey ≠ s!"{runId}:{definition.id}" then
    reject "operation key does not match run and step IDs"
  else if ¬ definition.dependsOn.Nodup then reject "dependencies must be unique"
  else if definition.id ∈ definition.dependsOn ∨ ¬ ∀ d ∈ definition.dependsOn, d ∈ known then
    reject "step definition has an invalid dependency"
  else .ok ()

/- `remaining[step_id]`; the ids are unique where it is consulted. -/
def dependsOnOf (definitions : List StepDefinition) (stepId : String) : List String :=
  match definitions.find? fun definition => definition.id = stepId with
  | some definition => definition.dependsOn
  | none => []

/- `while len(visited) < len(definitions)`: the first argument is the difference of the two
   lengths, which every round lowers by one. -/
def visitReady (ids : List String) (remaining : String → List String) :
    Nat → List String → Except HistoryIntegrityError Unit
  | 0, _ => .ok ()
  | rounds + 1, visited =>
    match ids.filter fun i => i ∉ visited ∧ ∀ d ∈ remaining i, d ∈ visited with
    | [] => reject "step definitions contain a cycle"
    | first :: _ => visitReady ids remaining rounds (visited ++ [first])

def validateDefinitions (runId : String) (definitions : List StepDefinition) :
    Except HistoryIntegrityError Unit :=
  let ids := definitions.map (·.id)
  if definitions = [] then reject "workflow definition must contain at least one step"
  else if definitions.map (·.position) ≠ (List.range definitions.length).map Int.ofNat then
    reject "step definitions must be ordered and contiguous"
  else if ¬ ids.Nodup then reject "step IDs must be unique"
  else
    match definitions.forM (checkDefinition runId ids) with
    | .error e => .error e
    | .ok () => visitReady ids (dependsOnOf definitions) definitions.length []

def pendingStep (runId : String) (createdAt : Datetime) (definition : StepDefinition) : StepRecord where
  id := definition.id
  runId := runId
  position := definition.position
  operation := definition.operation
  dependsOn := definition.dependsOn
  status := .pending
  request := definition.request
  operationKey := definition.operationKey
  toolKey := definition.toolKey
  output := none
  attempts := 0
  nextAttemptAt := none
  lastError := none
  createdAt := createdAt
  updatedAt := createdAt
  completedAt := none

def startRun (runId : String) (run : Option WorkflowRun) (event : WorkflowRunEvent)
    (created : WorkflowRunCreatedPayload) : Except HistoryIntegrityError WorkflowRun :=
  if run.isSome ∨ event.sequence ≠ 1 then
    reject "WorkflowRunCreated must be the first and only creation"
  else if event.schemaVersion ≠ workflowRunCreatedSchemaVersion then
    reject "materialized runs require WorkflowRunCreated v3"
  else if event.stepId.isSome ∨ event.attempt.isSome then
    reject "WorkflowRunCreated cannot identify a step or attempt"
  else
    match validateDefinitions runId created.steps with
    | .error e => .error e
    | .ok () => .ok
      { runId := runId
        name := created.name
        status := .running
        steps := created.steps.map (pendingStep runId event.occurredAt)
        createdAt := event.occurredAt
        updatedAt := event.occurredAt
        completedAt := none }

def completeRun (run : WorkflowRun) (event : WorkflowRunEvent) :
    Except HistoryIntegrityError WorkflowRun :=
  if event.stepId.isSome ∨ event.attempt.isSome then
    reject "WorkflowRunCompleted cannot identify a step or attempt"
  else if ∃ step ∈ run.steps, step.status ≠ .completed then
    reject "WorkflowRunCompleted requires every step to be completed"
  else .ok
    { run with
      status := .completed
      updatedAt := event.occurredAt
      completedAt := some event.occurredAt }

def failRun (run : WorkflowRun) (event : WorkflowRunEvent) (failed : WorkflowRunFailedPayload) :
    Except HistoryIntegrityError WorkflowRun :=
  if event.stepId ≠ some failed.stepId ∨ event.attempt.isSome then
    reject "WorkflowRunFailed metadata does not match its payload"
  else
    match findStep run failed.stepId with
    | .error e => .error e
    | .ok step =>
      if step.status ≠ .failed ∨ step.lastError ≠ some failed.error then
        reject "WorkflowRunFailed requires its step to be failed"
      else .ok { run with status := .failed, updatedAt := event.occurredAt }

def runnableStatuses : List StepStatus := [.pending, .intentRecorded, .retryWait]

def completedIds (steps : List StepRecord) : List String :=
  (steps.filter fun candidate => candidate.status = .completed).map (·.id)

def startAttempt (run : WorkflowRun) (event : WorkflowRunEvent) (attempt : Int) (step : StepRecord)
    (started : StepAttemptStartedPayload) : Except HistoryIntegrityError StepRecord :=
  if event.schemaVersion = attemptEventSchemaVersion ∧
      (started.workerId.isNone ∨ started.fenceToken.isNone) then
    reject "version 2 attempt events require lease ownership"
  else if step.status ∉ runnableStatuses then reject "attempt started from a non-runnable state"
  else if attempt ≠ step.attempts + 1 then reject "attempt numbers must increase by exactly one"
  else if ¬ ∀ d ∈ step.dependsOn, d ∈ completedIds run.steps then
    reject "attempt started before its dependencies completed"
  else if started.operation ≠ step.operation ∨ ¬ started.request.pyEq step.request ∨
      started.operationKey ≠ step.operationKey then
    reject "attempt changed an immutable step definition"
  else .ok
    { step with
      status := .intentRecorded
      attempts := attempt
      nextAttemptAt := none
      lastError := none
      updatedAt := event.occurredAt }

def advanceStep (run : WorkflowRun) (event : WorkflowRunEvent) (attempt : Int) (step : StepRecord) :
    EventPayload → Except HistoryIntegrityError StepRecord
  | .stepAttemptStarted started => startAttempt run event attempt step started
  | .stepRetryScheduled retry =>
    match requireCurrentAttempt step attempt .intentRecorded with
    | .error e => .error e
    | .ok () => .ok
      { step with
        status := .retryWait
        lastError := some retry.error
        nextAttemptAt := some retry.nextAttemptAt
        updatedAt := event.occurredAt }
  | .stepCompleted completed =>
    match requireCurrentAttempt step attempt .intentRecorded with
    | .error e => .error e
    | .ok () => .ok
      { step with
        status := .completed
        output := some completed.output
        nextAttemptAt := none
        lastError := none
        updatedAt := event.occurredAt
        completedAt := some event.occurredAt }
  | .stepFailed failed =>
    match requireCurrentAttempt step attempt .intentRecorded with
    | .error e => .error e
    | .ok () => .ok
      { step with
        status := .failed
        lastError := some failed.error
        nextAttemptAt := none
        updatedAt := event.occurredAt }
  | other => reject s!"unsupported event type {other.eventType.value}"

def advanceRun (run : WorkflowRun) (event : WorkflowRunEvent) :
    EventPayload → Except HistoryIntegrityError WorkflowRun
  | .workflowRunCompleted => completeRun run event
  | .workflowRunFailed failed => failRun run event failed
  | payload =>
    match event.stepId, event.attempt with
    | some stepId, some attempt =>
      match findStepWithIndex run stepId with
      | .error e => .error e
      | .ok (index, step) =>
        match advanceStep run event attempt step payload with
        | .error e => .error e
        | .ok step => .ok { run with steps := run.steps.set index step }
    | _, _ => reject s!"{event.eventType.value} requires step and attempt"

/-- The body of the loop over the events. The state is the run and the sequence expected. -/
def reduceEvent (runId : String) (state : Option WorkflowRun × Int) (event : WorkflowRunEvent) :
    Except HistoryIntegrityError (Option WorkflowRun × Int) :=
  if event.runId ≠ runId then reject "history contains multiple run IDs"
  else if event.sequence ≠ state.2 then
    reject s!"expected event sequence {state.2}, got {event.sequence}"
  else if event.schemaVersion ∉ supportedEventSchemaVersions then
    reject s!"unsupported event schema version {event.schemaVersion}"
  else
    match parsePayload event.eventType event.payload with
    | none => reject s!"invalid {event.eventType.value} payload at sequence {event.sequence}"
    | some (.workflowRunCreated created) =>
      (startRun runId state.1 event created).map fun run => (some run, state.2 + 1)
    | some payload =>
      match state.1 with
      | none => reject "history does not begin with WorkflowRunCreated"
      | some run =>
        if run.status ≠ .running then reject "events cannot follow a terminal run event"
        else (advanceRun run event payload).map fun run => (some run, state.2 + 1)

/- The two checks after the loop. -/
def settle (run : WorkflowRun) : Except HistoryIntegrityError WorkflowRun :=
  if run.status = .running ∧ ∃ step ∈ run.steps, step.status = .failed then
    reject "failed step is missing WorkflowRunFailed"
  else if run.status = .running ∧ ∀ step ∈ run.steps, step.status = .completed then
    reject "completed steps are missing WorkflowRunCompleted"
  else .ok run

def foldHistory (runId : String) (events : List WorkflowRunEvent) :
    Except HistoryIntegrityError (Option WorkflowRun × Int) :=
  Replay.replay (reduceEvent runId) (none, 1) events

def reduceWorkflowRunHistory (events : List WorkflowRunEvent) :
    Except HistoryIntegrityError WorkflowRun :=
  match events with
  | [] => reject "workflow run history is empty"
  | first :: rest =>
    match foldHistory first.runId (first :: rest) with
    | .error e => .error e
    | .ok (none, _) => reject "workflow run history is empty"
    | .ok (some run, _) => settle run

end Crashsafe
