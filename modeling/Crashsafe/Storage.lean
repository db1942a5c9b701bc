import Crashsafe.Definition
import Crashsafe.History
import Crashsafe.Library.Rows

/- The engine database and the transactions of SQLiteStorage. A transaction that raises
   rolls back, so it returns no database. Clock readings are arguments: `now` is read before
   the transaction starts, `leaseNow` inside it. -/
namespace Crashsafe
open Rows

structure WorkflowRunRow where
  runId : String
  name : String
  status : WorkflowRunStatus
  definition : WorkflowRunCreatedPayload
  createdAt : Datetime
  updatedAt : Datetime
  completedAt : Option Datetime
  deriving Repr

structure StepRow where
  runId : String
  id : String
  position : Int
  operation : StepName
  status : StepStatus
  request : Json
  operationKey : String
  toolKey : String
  output : Option Json
  attempts : Int
  nextAttemptAt : Option Datetime
  lastError : Option String
  createdAt : Datetime
  updatedAt : Datetime
  completedAt : Option Datetime
  deriving Repr

structure DependencyRow where
  runId : String
  stepId : String
  dependencyStepId : String
  deriving DecidableEq, Repr

structure Database where
  workflowRuns : List WorkflowRunRow
  steps : List StepRow
  stepDependencies : List DependencyRow
  workflowRunEvents : List WorkflowRunEvent
  workflowRunLeases : List WorkflowRunLease
  toolThrottles : List ToolThrottle
  deriving Repr

def emptyDatabase : Database := ⟨[], [], [], [], [], []⟩

/- The exceptions a method may leave by; the last two are SQLite's constraint failure and
   datetime arithmetic out of range. -/
inductive StorageError where
  | workflowRunNotFound (runId : String)
  | keyError (runId stepId : String)
  | valueError (message : String)
  | leaseLost (message : String)
  | runtimeError (message : String)
  | integrityError
  | overflowError
  deriving DecidableEq, Repr

def Database.runsOf (db : Database) (runId : String) : List WorkflowRunRow :=
  ofKey (·.runId) runId db.workflowRuns

def Database.stepsOf (db : Database) (runId : String) : List StepRow :=
  ofKey (·.runId) runId db.steps

def Database.dependenciesOf (db : Database) (runId : String) : List DependencyRow :=
  ofKey (·.runId) runId db.stepDependencies

def Database.eventsOf (db : Database) (runId : String) : List WorkflowRunEvent :=
  ofKey (·.runId) runId db.workflowRunEvents

def Database.leasesOf (db : Database) (runId : String) : List WorkflowRunLease :=
  ofKey (·.runId) runId db.workflowRunLeases

section Reading

/- `_dependencies` of one run's rows, with `get(id, [])` applied. -/
def dependencies (rows : List DependencyRow) (stepId : String) : List String :=
  (rows.filter fun row => row.stepId = stepId).map (·.dependencyStepId)

def stepFromRow (dependencies : String → List String) (row : StepRow) : StepRecord where
  id := row.id
  runId := row.runId
  position := row.position
  operation := row.operation
  dependsOn := dependencies row.id
  status := row.status
  request := row.request
  operationKey := row.operationKey
  toolKey := row.toolKey
  output := row.output
  attempts := row.attempts
  nextAttemptAt := row.nextAttemptAt
  lastError := row.lastError
  createdAt := row.createdAt
  updatedAt := row.updatedAt
  completedAt := row.completedAt

def workflowRunFromRows (run : WorkflowRunRow) (steps : List StepRow)
    (dependencies : String → List String) : WorkflowRun where
  runId := run.runId
  name := run.name
  status := run.status
  steps := steps.map (stepFromRow dependencies)
  createdAt := run.createdAt
  updatedAt := run.updatedAt
  completedAt := run.completedAt

def getWorkflowRun (db : Database) (runId : String) : Except StorageError WorkflowRun :=
  match db.runsOf runId with
  | [] => .error (.workflowRunNotFound runId)
  | run :: _ => .ok (workflowRunFromRows run (orderBy (·.position) (db.stepsOf runId))
      (dependencies (db.dependenciesOf runId)))

def listEvents (db : Database) (runId : String) : Except StorageError (List WorkflowRunEvent) :=
  match orderBy (·.sequence) (db.eventsOf runId) with
  | [] => .error (.workflowRunNotFound runId)
  | event :: rest => .ok (event :: rest)

def getStepRow (db : Database) (runId stepId : String) : Except StorageError StepRow :=
  match db.steps.find? fun row => row.runId = runId ∧ row.id = stepId with
  | none => .error (.keyError runId stepId)
  | some row => .ok row

/-- Some dependency of the step is not completed. -/
def Blocked (db : Database) (runId stepId : String) : Prop :=
  ∃ d ∈ db.stepDependencies, (d.runId = runId ∧ d.stepId = stepId) ∧
    ∃ dep ∈ db.steps, (dep.runId = d.runId ∧ dep.id = d.dependencyStepId) ∧ dep.status ≠ .completed

instance (db : Database) (runId stepId : String) : Decidable (Blocked db runId stepId) := by
  unfold Blocked
  infer_instance

end Reading

section Writing

def insertRun (db : Database) (row : WorkflowRunRow) : Except StorageError Database :=
  if ∃ r ∈ db.workflowRuns, r.runId = row.runId then .error .integrityError
  else .ok { db with workflowRuns := db.workflowRuns ++ [row] }

/- Primary key, the two UNIQUE constraints and the foreign key of `steps`. -/
def insertStep (db : Database) (row : StepRow) : Except StorageError Database :=
  if ∃ s ∈ db.steps, (s.runId = row.runId ∧ s.id = row.id) ∨ s.operationKey = row.operationKey ∨
      (s.runId = row.runId ∧ s.position = row.position) then .error .integrityError
  else if ¬ ∃ r ∈ db.workflowRuns, r.runId = row.runId then .error .integrityError
  else .ok { db with steps := db.steps ++ [row] }

def insertDependency (db : Database) (row : DependencyRow) : Except StorageError Database :=
  if row ∈ db.stepDependencies then .error .integrityError
  else if ¬ ((∃ s ∈ db.steps, s.runId = row.runId ∧ s.id = row.stepId) ∧
      ∃ s ∈ db.steps, s.runId = row.runId ∧ s.id = row.dependencyStepId) then .error .integrityError
  else .ok { db with stepDependencies := db.stepDependencies ++ [row] }

/- `SELECT COALESCE(MAX(sequence), 0) + 1`. -/
def nextSequence (db : Database) (runId : String) : Int :=
  ((db.eventsOf runId).map (·.sequence)).max?.getD 0 + 1

/- Every caller passes its payload's own event type. -/
def appendEvent (db : Database) (runId : String) (payload : EventPayload) (occurredAt : Datetime)
    (stepId : Option String) (attempt : Option Int) (schemaVersion : Int) : Database :=
  { db with
    workflowRunEvents := db.workflowRunEvents ++
      [{ runId := runId
         sequence := nextSequence db runId
         eventType := payload.eventType
         schemaVersion := schemaVersion
         stepId := stepId
         attempt := attempt
         payload := some payload
         occurredAt := occurredAt }] }

def updateStep (db : Database) (runId stepId : String) (set : StepRow → StepRow) : Database :=
  { db with steps := updateWhere (fun row => row.runId = runId ∧ row.id = stepId) set db.steps }

def updateRun (db : Database) (runId : String) (set : WorkflowRunRow → WorkflowRunRow) : Database :=
  { db with workflowRuns := updateWhere (fun row => row.runId = runId) set db.workflowRuns }

end Writing

section Creating

def selectedTool (defaultToolKey : String) : Option String → String
  | none => defaultToolKey
  | some toolKey => if toolKey = "" then defaultToolKey else toolKey

def operationKey (runId stepId : String) : String := s!"{runId}:{stepId}"

def materialize (runId toolKey : String) (steps : List WorkflowStep) : List StepDefinition :=
  steps.zipIdx.map fun (step, position) =>
    { id := step.id
      position := position
      operation := step.request.operation
      dependsOn := step.dependsOn
      request := step.request.modelDump
      operationKey := operationKey runId step.id
      toolKey := toolKey }

def pendingRow (runId : String) (now : Datetime) (definition : StepDefinition) : StepRow where
  runId := runId
  id := definition.id
  position := definition.position
  operation := definition.operation
  status := .pending
  request := definition.request
  operationKey := definition.operationKey
  toolKey := definition.toolKey
  output := none
  attempts := 0
  nextAttemptAt := none
  lastError := none
  createdAt := now
  updatedAt := now
  completedAt := none

def dependencyRows (runId : String) (steps : List (String × List String)) : List DependencyRow :=
  steps.flatMap fun (stepId, dependsOn) => dependsOn.map fun d => ⟨runId, stepId, d⟩

/-- `runId` is the UUID drawn for the run. -/
def createWorkflowRun (db : Database) (definition : WorkflowDefinition) (toolKey : Option String)
    (defaultToolKey runId : String) (now : Datetime) : Except StorageError Database := do
  let definitions := materialize runId (selectedTool defaultToolKey toolKey) definition.steps
  let created : WorkflowRunCreatedPayload := { name := definition.name, steps := definitions }
  let db ← insertRun db
    { runId := runId
      name := definition.name
      status := .running
      definition := created
      createdAt := now
      updatedAt := now
      completedAt := none }
  let db ← (definitions.map (pendingRow runId now)).foldlM insertStep db
  let db ← (dependencyRows runId (definitions.map fun d => (d.id, d.dependsOn))).foldlM
    insertDependency db
  return appendEvent db runId (.workflowRunCreated created) now none none
    workflowRunCreatedSchemaVersion

end Creating

section Claiming

def throttleAllows (db : Database) (current : Datetime) (toolKey : String) : Bool :=
  match db.toolThrottles.find? fun t => t.toolKey = toolKey with
  | none => true
  | some throttle => throttle.blockedUntil ≤ current

def leaseAllows (db : Database) (current : Datetime) (runId : String) : Bool :=
  match db.workflowRunLeases.find? fun l => l.runId = runId with
  | none => true
  | some lease => lease.leaseExpiresAt ≤ current

def Eligible (db : Database) (current : Datetime) (includeLease : Bool) (s : StepRow)
    (w : WorkflowRunRow) : Prop :=
  w.runId = s.runId ∧ w.status = .running ∧ s.status ∈ runnableStatuses ∧
    (∀ at' ∈ s.nextAttemptAt, at' ≤ current) ∧
    (includeLease = true → throttleAllows db current s.toolKey = true) ∧
    (includeLease = true → leaseAllows db current s.runId = true) ∧
    ¬ Blocked db s.runId s.id

instance (db : Database) (current : Datetime) (includeLease : Bool) (s : StepRow)
    (w : WorkflowRunRow) : Decidable (Eligible db current includeLease s w) := by
  unfold Eligible
  infer_instance

def eligibleRows (db : Database) (current : Datetime) (includeLease : Bool) :
    List (StepRow × WorkflowRunRow) :=
  db.steps.flatMap fun s =>
    (db.workflowRuns.filter fun w => Eligible db current includeLease s w).map fun w => (s, w)

/- `ORDER BY w.created_at, s.position`. -/
def Precedes (a b : StepRow × WorkflowRunRow) : Prop :=
  a.2.createdAt < b.2.createdAt ∨ a.2.createdAt = b.2.createdAt ∧ a.1.position < b.1.position

instance (a b : StepRow × WorkflowRunRow) : Decidable (Precedes a b) := by
  unfold Precedes
  infer_instance

/-- Every row `LIMIT 1` may return: SQL leaves the order of ties open. -/
def selectRunnable (db : Database) (current : Datetime) (includeLease : Bool) : List StepRow :=
  let rows := eligibleRows db current includeLease
  (rows.filter fun a => ∀ b ∈ rows, ¬ Precedes b a).map Prod.fst

def nextRunnableStep (db : Database) (now : Datetime) : List StepRecord :=
  (selectRunnable db now false).map fun row =>
    stepFromRow (dependencies (db.dependenciesOf row.runId)) row

def nextFenceToken (db : Database) (runId : String) : Int :=
  match db.workflowRunLeases.find? fun l => l.runId = runId with
  | none => 1
  | some existing => existing.fenceToken + 1

/- `ON CONFLICT(run_id)`: every other column is replaced. -/
def replaceLease (old new : WorkflowRunLease) : WorkflowRunLease := { new with runId := old.runId }

def upsertLease (db : Database) (lease : WorkflowRunLease) : Database :=
  { db with workflowRunLeases := upsert (·.runId) replaceLease lease db.workflowRunLeases }

def grantLease (db : Database) (ownerId : String) (now expires : Datetime) (row : StepRow) :
    Database × ClaimedStep :=
  let lease : WorkflowRunLease :=
    { runId := row.runId
      ownerId := ownerId
      fenceToken := nextFenceToken db row.runId
      leaseExpiresAt := expires
      updatedAt := now }
  (upsertLease db lease, ⟨stepFromRow (dependencies (db.dependenciesOf row.runId)) row, lease⟩)

/-- The claims the call may grant, one for each row the selection may return; none is the
    result `None`. -/
def claimRunnableStep (db : Database) (ownerId : String) (leaseTtl : PyFloat) (now : Datetime) :
    Except StorageError (List (Database × ClaimedStep)) :=
  match now.plusSeconds leaseTtl with
  | none => .error .overflowError
  | some expires => .ok ((selectRunnable db now true).map (grantLease db ownerId now expires))

def ownsLease (runId ownerId : String) (fenceToken : Int) (lease : WorkflowRunLease) : Bool :=
  lease.runId = runId ∧ lease.ownerId = ownerId ∧ lease.fenceToken = fenceToken

def renewLease (db : Database) (runId ownerId : String) (fenceToken : Int) (leaseTtl : PyFloat)
    (now : Datetime) : Except StorageError (Database × Bool) :=
  match now.plusSeconds leaseTtl with
  | none => .error .overflowError
  | some expires =>
    let live := fun lease : WorkflowRunLease =>
      ownsLease runId ownerId fenceToken lease && decide (now < lease.leaseExpiresAt)
    .ok ({ db with
        workflowRunLeases := updateWhere live
          (fun lease => { lease with leaseExpiresAt := expires, updatedAt := now })
          db.workflowRunLeases },
      db.workflowRunLeases.countP live == 1)

def releaseLease (db : Database) (runId ownerId : String) (fenceToken : Int) (now : Datetime) :
    Database × Bool :=
  ({ db with
      workflowRunLeases := updateWhere (ownsLease runId ownerId fenceToken)
        (fun lease => { lease with leaseExpiresAt := now, updatedAt := now }) db.workflowRunLeases },
    db.workflowRunLeases.countP (ownsLease runId ownerId fenceToken) == 1)

end Claiming

section Transitions

def requireLease (db : Database) (step : StepRow) (ownerId : Option String)
    (fenceToken : Option Int) (leaseNow : Datetime) : Except StorageError Unit :=
  match ownerId, fenceToken with
  | none, none => .ok ()
  | some ownerId, some fenceToken =>
    if ∃ lease ∈ db.workflowRunLeases, ownsLease step.runId ownerId fenceToken lease = true ∧
        leaseNow < lease.leaseExpiresAt then .ok ()
    else .error (.leaseLost s!"worker {ownerId} no longer owns run {step.runId}")
  | _, _ => .error (.valueError "owner_id and fence_token must be supplied together")

def requireActiveAttempt (db : Database) (row : StepRow) (ownerId : Option String)
    (fenceToken : Option Int) (leaseNow : Datetime) : Except StorageError Unit :=
  match requireLease db row ownerId fenceToken leaseNow with
  | .error e => .error e
  | .ok () =>
    if row.status ≠ .intentRecorded then .error (.runtimeError s!"step {row.id} has no active attempt")
    else .ok ()

def setAttempt (attempt : Int) (now : Datetime) (row : StepRow) : StepRow :=
  { row with
    status := .intentRecorded
    attempts := attempt
    nextAttemptAt := none
    lastError := none
    updatedAt := now }

def setRetry (error : String) (nextAttemptAt now : Datetime) (row : StepRow) : StepRow :=
  { row with
    status := .retryWait
    lastError := some error
    nextAttemptAt := some nextAttemptAt
    updatedAt := now }

def setFailed (error : String) (now : Datetime) (row : StepRow) : StepRow :=
  { row with status := .failed, lastError := some error, updatedAt := now }

def setCompleted (output : Json) (now : Datetime) (row : StepRow) : StepRow :=
  { row with
    status := .completed
    output := some output
    nextAttemptAt := none
    lastError := none
    completedAt := some now
    updatedAt := now }

def setRunFailed (now : Datetime) (row : WorkflowRunRow) : WorkflowRunRow :=
  { row with status := .failed, updatedAt := now }

def setRunCompleted (now : Datetime) (row : WorkflowRunRow) : WorkflowRunRow :=
  { row with status := .completed, completedAt := some now, updatedAt := now }

def attemptPayload (row : StepRow) (ownerId : Option String) (fenceToken : Option Int) :
    EventPayload :=
  .stepAttemptStarted
    { operation := row.operation
      request := row.request
      operationKey := row.operationKey
      workerId := ownerId
      fenceToken := fenceToken }

def recordAttempt (db : Database) (runId stepId : String) (ownerId : Option String)
    (fenceToken : Option Int) (now leaseNow : Datetime) :
    Except StorageError (Database × StepRecord) :=
  match getStepRow db runId stepId with
  | .error e => .error e
  | .ok row =>
    match requireLease db row ownerId fenceToken leaseNow with
    | .error e => .error e
    | .ok () =>
      if row.status ∉ runnableStatuses then .error (.runtimeError s!"step {stepId} is not runnable")
      else if Blocked db runId stepId then
        .error (.runtimeError s!"step {stepId} has incomplete dependencies")
      else
        let attempt := row.attempts + 1
        let version := if ownerId.isSome then attemptEventSchemaVersion else eventSchemaVersion
        let db := appendEvent db runId (attemptPayload row ownerId fenceToken) now (some stepId)
          (some attempt) version
        let db := updateStep db runId stepId (setAttempt attempt now)
        match getStepRow db runId stepId with
        | .error e => .error e
        | .ok updated => .ok (db, stepFromRow (dependencies (db.dependenciesOf runId)) updated)

/- `ON CONFLICT(tool_key)`: the later deadline stays, with the reason that came with it. -/
def mergeThrottle (old new : ToolThrottle) : ToolThrottle where
  toolKey := old.toolKey
  blockedUntil := max old.blockedUntil new.blockedUntil
  reason := if old.blockedUntil ≤ new.blockedUntil then new.reason else old.reason
  updatedAt := new.updatedAt

def scheduleRetry (db : Database) (runId stepId error : String) (nextAttemptAt : Datetime)
    (ownerId : Option String) (fenceToken : Option Int) (throttleTool : Bool)
    (now leaseNow : Datetime) : Except StorageError Database :=
  match getStepRow db runId stepId with
  | .error e => .error e
  | .ok row =>
    match requireActiveAttempt db row ownerId fenceToken leaseNow with
    | .error e => .error e
    | .ok () =>
      let db := appendEvent db runId (.stepRetryScheduled ⟨error, nextAttemptAt⟩) now (some stepId)
        (some row.attempts) eventSchemaVersion
      let db := updateStep db runId stepId (setRetry error nextAttemptAt now)
      if throttleTool then
        .ok { db with
          toolThrottles := upsert (·.toolKey) mergeThrottle ⟨row.toolKey, nextAttemptAt, error, now⟩
            db.toolThrottles }
      else .ok db

def failStep (db : Database) (runId stepId error : String) (ownerId : Option String)
    (fenceToken : Option Int) (now leaseNow : Datetime) : Except StorageError Database :=
  match getStepRow db runId stepId with
  | .error e => .error e
  | .ok row =>
    match requireActiveAttempt db row ownerId fenceToken leaseNow with
    | .error e => .error e
    | .ok () =>
      let db := appendEvent db runId (.stepFailed ⟨error⟩) now (some stepId) (some row.attempts)
        eventSchemaVersion
      let db := appendEvent db runId (.workflowRunFailed ⟨stepId, error⟩) now (some stepId) none
        eventSchemaVersion
      let db := updateStep db runId stepId (setFailed error now)
      .ok (updateRun db runId (setRunFailed now))

/- `SELECT COUNT(*) FROM steps WHERE run_id=? AND status != 'completed'`. -/
def remaining (db : Database) (runId : String) : Nat :=
  (db.stepsOf runId).countP fun row => row.status ≠ .completed

def completeStep (db : Database) (runId stepId : String) (output : Json) (ownerId : Option String)
    (fenceToken : Option Int) (now leaseNow : Datetime) : Except StorageError Database :=
  match getStepRow db runId stepId with
  | .error e => .error e
  | .ok row =>
    match requireLease db row ownerId fenceToken leaseNow with
    | .error e => .error e
    | .ok () =>
      if row.status ≠ .intentRecorded then .ok db
      else
        let db := appendEvent db runId (.stepCompleted ⟨output⟩) now (some stepId)
          (some row.attempts) eventSchemaVersion
        let db := updateStep db runId stepId (setCompleted output now)
        if remaining db runId = 0 then
          let db := appendEvent db runId .workflowRunCompleted now none none eventSchemaVersion
          .ok (updateRun db runId (setRunCompleted now))
        else .ok db

end Transitions

section Rebuilding

def rebuiltRunRow (rebuilt : WorkflowRun) (created : WorkflowRunCreatedPayload) : WorkflowRunRow where
  runId := rebuilt.runId
  name := rebuilt.name
  status := rebuilt.status
  definition := created
  createdAt := rebuilt.createdAt
  updatedAt := rebuilt.updatedAt
  completedAt := rebuilt.completedAt

def rebuiltStepRow (step : StepRecord) : StepRow where
  runId := step.runId
  id := step.id
  position := step.position
  operation := step.operation
  status := step.status
  request := step.request
  operationKey := step.operationKey
  toolKey := step.toolKey
  output := step.output
  attempts := step.attempts
  nextAttemptAt := step.nextAttemptAt
  lastError := step.lastError
  createdAt := step.createdAt
  updatedAt := step.updatedAt
  completedAt := step.completedAt

/- `WorkflowRunCreatedPayload.model_validate(self.list_events(run_id)[0].payload)`. -/
def creationPayload : List WorkflowRunEvent → Option WorkflowRunCreatedPayload
  | first :: _ =>
    match first.payload with
    | some (.workflowRunCreated created) => some created
    | _ => none
  | [] => none

/-- The write transaction of `rebuild_projection`, given what its two reads produced. -/
def rebuildProjection (db : Database) (runId : String) (rebuilt : WorkflowRun)
    (created : WorkflowRunCreatedPayload) : Except StorageError Database := do
  let db : Database :=
    { db with
      workflowRunLeases := deleteWhere (fun lease => lease.runId = runId) db.workflowRunLeases
      stepDependencies := deleteWhere (fun row => row.runId = runId) db.stepDependencies
      steps := deleteWhere (fun row => row.runId = runId) db.steps
      workflowRuns := deleteWhere (fun row => row.runId = runId) db.workflowRuns }
  let db ← insertRun db (rebuiltRunRow rebuilt created)
  let db ← (rebuilt.steps.map rebuiltStepRow).foldlM insertStep db
  (dependencyRows runId (rebuilt.steps.map fun step => (step.id, step.dependsOn))).foldlM
    insertDependency db

end Rebuilding

end Crashsafe
