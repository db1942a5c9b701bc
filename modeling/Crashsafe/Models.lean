import Crashsafe.Values

/- Enumerations, event payloads and records of the engine, field by field. -/
namespace Crashsafe

inductive WorkflowRunStatus where
  | running
  | completed
  | failed
  deriving DecidableEq, Repr

inductive StepStatus where
  | pending
  | intentRecorded
  | retryWait
  | completed
  | failed
  deriving DecidableEq, Repr

inductive StepName where
  | charge
  | provision
  | notify
  deriving DecidableEq, Repr

def StepName.value : StepName → String
  | .charge => "charge"
  | .provision => "provision"
  | .notify => "notify"

inductive EventType where
  | workflowRunCreated
  | stepAttemptStarted
  | stepRetryScheduled
  | stepCompleted
  | stepFailed
  | workflowRunCompleted
  | workflowRunFailed
  deriving DecidableEq, Repr

def EventType.value : EventType → String
  | .workflowRunCreated => "WorkflowRunCreated"
  | .stepAttemptStarted => "StepAttemptStarted"
  | .stepRetryScheduled => "StepRetryScheduled"
  | .stepCompleted => "StepCompleted"
  | .stepFailed => "StepFailed"
  | .workflowRunCompleted => "WorkflowRunCompleted"
  | .workflowRunFailed => "WorkflowRunFailed"

structure StepDefinition where
  id : String
  position : Int
  operation : StepName
  dependsOn : List String
  request : Json
  operationKey : String
  toolKey : String
  deriving Repr

structure WorkflowRunCreatedPayload where
  name : String
  steps : List StepDefinition
  deriving Repr

structure StepAttemptStartedPayload where
  operation : StepName
  request : Json
  operationKey : String
  workerId : Option String
  fenceToken : Option Int
  deriving Repr

structure StepRetryScheduledPayload where
  error : String
  nextAttemptAt : Datetime
  deriving Repr

structure StepCompletedPayload where
  output : Json
  deriving Repr

structure StepFailedPayload where
  error : String
  deriving Repr

structure WorkflowRunFailedPayload where
  stepId : String
  error : String
  deriving Repr

inductive EventPayload where
  | workflowRunCreated (created : WorkflowRunCreatedPayload)
  | stepAttemptStarted (started : StepAttemptStartedPayload)
  | stepRetryScheduled (retry : StepRetryScheduledPayload)
  | stepCompleted (completed : StepCompletedPayload)
  | stepFailed (failed : StepFailedPayload)
  | workflowRunCompleted
  | workflowRunFailed (failed : WorkflowRunFailedPayload)
  deriving Repr

def EventPayload.eventType : EventPayload → EventType
  | .workflowRunCreated _ => .workflowRunCreated
  | .stepAttemptStarted _ => .stepAttemptStarted
  | .stepRetryScheduled _ => .stepRetryScheduled
  | .stepCompleted _ => .stepCompleted
  | .stepFailed _ => .stepFailed
  | .workflowRunCompleted => .workflowRunCompleted
  | .workflowRunFailed _ => .workflowRunFailed

/- The payload is what the model of the event's own type reads from the stored dict,
   `none` for a dict that model rejects. -/
structure WorkflowRunEvent where
  runId : String
  sequence : Int
  eventType : EventType
  schemaVersion : Int
  stepId : Option String
  attempt : Option Int
  payload : Option EventPayload
  occurredAt : Datetime
  deriving Repr

structure StepRecord where
  id : String
  runId : String
  position : Int
  operation : StepName
  dependsOn : List String
  status : StepStatus
  request : Json
  operationKey : String
  toolKey : String
  output : Option Json
  attempts : Int
  nextAttemptAt : Option Datetime
  lastError : Option String
  createdAt : Datetime
  updatedAt : Datetime
  completedAt : Option Datetime
  deriving Repr

structure WorkflowRun where
  runId : String
  name : String
  status : WorkflowRunStatus
  steps : List StepRecord
  createdAt : Datetime
  updatedAt : Datetime
  completedAt : Option Datetime
  deriving Repr

structure WorkflowRunLease where
  runId : String
  ownerId : String
  fenceToken : Int
  leaseExpiresAt : Datetime
  updatedAt : Datetime
  deriving DecidableEq, Repr

structure ClaimedStep where
  step : StepRecord
  lease : WorkflowRunLease
  deriving Repr

structure ToolThrottle where
  toolKey : String
  blockedUntil : Datetime
  reason : String
  updatedAt : Datetime
  deriving DecidableEq, Repr

structure ToolResult where
  operation : StepName
  referenceId : String
  deduplicated : Bool
  deriving DecidableEq, Repr

/-- `result.model_dump(mode="json")`. -/
def ToolResult.modelDump (r : ToolResult) : Json :=
  .obj [("deduplicated", .bool r.deduplicated), ("operation", .str r.operation.value),
    ("reference_id", .str r.referenceId)]

@[simp] theorem modelDump_reference (r : ToolResult) :
    r.modelDump.get? "reference_id" = some (.str r.referenceId) := by
  simp [ToolResult.modelDump, Json.get?]

end Crashsafe
