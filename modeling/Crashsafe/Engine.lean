import Crashsafe.RunWrites
import Crashsafe.Library.Execution

/- Any number of processes on one engine database. Each runs WorkflowEngine.run_once over and
   over, submits runs or rebuilds projections; its transactions interleave with those of the
   others in any order. An action carries the clock reading it takes, which may be any value.
   `issued` and `sent` log the leases granted and the requests sent; no step reads them. -/
namespace Crashsafe

structure Settings where
  maxAttempts : Int
  baseBackoffSeconds : PyFloat
  maxBackoffSeconds : PyFloat
  leaseTtlSeconds : PyFloat

/- Several processes may share one worker id. -/
structure Deployment where
  workerId : Nat → String
  settings : Nat → Settings
  defaultToolKey : Nat → String

/-- How `gateway.execute` returns or raises; `raised` is any other exception. -/
inductive Outcome where
  | result (result : ToolResult)
  | retryable (message : String) (retryAfterSeconds : Option PyFloat) (throttleTool : Bool)
  | permanent (message : String)
  | raised

inductive Decision where
  | retry (error : String) (nextAttemptAt : Datetime) (throttleTool : Bool)
  | fail (error : String)
  | complete (output : Json)

/- A `2 ** (attempts - 1)` past the largest float raises before the minimum is taken. -/
def backoff (settings : Settings) (attempts : Int) : Option PyFloat :=
  if 1024 ≤ attempts - 1 then none
  else some ((settings.baseBackoffSeconds.scale (attempts - 1)).min settings.maxBackoffSeconds)

def handleRetryableFailure (settings : Settings) (step : StepRecord) (message : String)
    (retryAfterSeconds : Option PyFloat) (throttleTool : Bool) (now : Datetime) : Option Decision :=
  if settings.maxAttempts ≤ step.attempts then some (.fail s!"retry budget exhausted: {message}")
  else
    match retryAfterSeconds.orElse fun _ => backoff settings step.attempts with
    | none => none
    | some delay => (now.plusSeconds delay).map fun deadline => .retry message deadline throttleTool

/-- What run_once calls next; `none` is an exception on the way there. -/
def decideOutcome (settings : Settings) (step : StepRecord) (now : Datetime) : Outcome → Option Decision
  | .result result => some (.complete result.modelDump)
  | .retryable message retryAfterSeconds throttleTool =>
    handleRetryableFailure settings step message retryAfterSeconds throttleTool now
  | .permanent message => some (.fail message)
  | .raised => none

/- Where a process stands between two of its transactions, with what it remembers. -/
inductive Pc where
  | idle
  | creating (runId : String) (definition : WorkflowDefinition) (toolKey : Option String)
      (now : Datetime)
  | claiming (now : Datetime)
  | claimed (claim : ClaimedStep)
  | recording (claim : ClaimedStep) (now : Datetime)
  | attempted (claim : ClaimedStep) (step : StepRecord)
  | waiting (claim : ClaimedStep) (step : StepRecord) (request : Nat)
  | decided (claim : ClaimedStep) (step : StepRecord) (decision : Decision)
  | committing (claim : ClaimedStep) (step : StepRecord) (decision : Decision) (now : Datetime)
  | finishing (claim : ClaimedStep)
  | releasing (claim : ClaimedStep) (now : Datetime)
  | rebuilding (runId : String) (history : List WorkflowRunEvent) (rebuilt : WorkflowRun)
  | rewriting (runId : String) (history : List WorkflowRunEvent) (rebuilt : WorkflowRun)
      (created : WorkflowRunCreatedPayload)

/- A heartbeat thread and the clock reading of a renewal that has not run yet. -/
structure Heartbeat where
  process : Nat
  lease : WorkflowRunLease
  reading : Option Datetime

structure SentRequest where
  runId : String
  stepId : String
  attempt : Int
  operation : StepName
  request : Json
  operationKey : String

def requestOf (step : StepRecord) : SentRequest where
  runId := step.runId
  stepId := step.id
  attempt := step.attempts
  operation := step.operation
  request := step.request
  operationKey := step.operationKey

structure State where
  db : Database
  pc : Nat → Pc
  heartbeats : List Heartbeat
  issued : List WorkflowRunLease
  sent : List SentRequest

def State.initial : State := ⟨emptyDatabase, fun _ => .idle, [], [], []⟩

def State.goto (s : State) (p : Nat) (pc : Pc) : State :=
  { s with pc := Function.update s.pc p pc }

/- `p` is the process that acts, `i` a heartbeat. -/
inductive Action where
  | beginCreate (p : Nat) (runId : String) (definition : WorkflowDefinition)
      (toolKey : Option String) (now : Datetime)
  | commitCreate (p : Nat)
  | beginClaim (p : Nat) (now : Datetime)
  | commitClaim (p choice : Nat)
  | beginRecord (p : Nat) (now : Datetime)
  | commitRecord (p : Nat) (leaseNow : Datetime)
  | send (p : Nat)
  | resolve (p : Nat) (outcome : Outcome) (now : Datetime)
  | beginDecision (p : Nat) (now : Datetime)
  | commitDecision (p : Nat) (leaseNow : Datetime)
  | abandon (p : Nat)
  | beginRelease (p : Nat) (now : Datetime)
  | commitRelease (p : Nat)
  | readHeartbeat (i : Nat) (now : Datetime)
  | renewHeartbeat (i : Nat)
  | crash (p : Nat)
  | readHistory (p : Nat) (runId : String)
  | readCreation (p : Nat)
  | commitRebuild (p : Nat)

/- The texts `str(uuid.uuid4())` can be are among these. -/
def uuidText (runId : String) : Bool :=
  runId.toList.all fun c => ('0' ≤ c && c ≤ '9') || ('a' ≤ c && c ≤ 'f') || c = '-'

/-- The transition a decision calls for. -/
def commit (db : Database) (lease : WorkflowRunLease) (step : StepRecord) (decision : Decision)
    (now leaseNow : Datetime) : Except StorageError Database :=
  match decision with
  | .retry error nextAttemptAt throttleTool =>
    scheduleRetry db step.runId step.id error nextAttemptAt (some lease.ownerId)
      (some lease.fenceToken) throttleTool now leaseNow
  | .fail error =>
    failStep db step.runId step.id error (some lease.ownerId) (some lease.fenceToken) now leaseNow
  | .complete output =>
    completeStep db step.runId step.id output (some lease.ownerId) (some lease.fenceToken) now
      leaseNow

/- The claim a process would release in `finally`. -/
def Pc.claim? : Pc → Option ClaimedStep
  | .claimed claim | .recording claim _ | .attempted claim _ | .waiting claim _ _
  | .decided claim _ _ | .committing claim _ _ _ | .finishing claim | .releasing claim _ => some claim
  | _ => none

/-- One step of one process, heartbeat or crash; `none` when it cannot be taken. An exception
    out of run_once's body leads to `finally`, any other one back to the loop. -/
def step (d : Deployment) (s : State) : Action → Option State
  | .beginCreate p runId definition toolKey now =>
    match s.pc p with
    | .idle => if uuidText runId then some (s.goto p (.creating runId definition toolKey now)) else none
    | _ => none
  | .commitCreate p =>
    match s.pc p with
    | .creating runId definition toolKey now =>
      match createWorkflowRun s.db definition toolKey (d.defaultToolKey p) runId now with
      | .ok db => some { s.goto p .idle with db := db }
      | .error _ => some (s.goto p .idle)
    | _ => none
  | .beginClaim p now =>
    match s.pc p with
    | .idle => some (s.goto p (.claiming now))
    | _ => none
  | .commitClaim p choice =>
    match s.pc p with
    | .claiming now =>
      match claimRunnableStep s.db (d.workerId p) (d.settings p).leaseTtlSeconds now with
      | .error _ => some (s.goto p .idle)
      | .ok [] => some (s.goto p .idle)
      | .ok outcomes =>
        outcomes[choice]?.map fun (db, claim) =>
          { s.goto p (.claimed claim) with db := db, issued := s.issued ++ [claim.lease] }
    | _ => none
  | .beginRecord p now =>
    match s.pc p with
    | .claimed claim => some (s.goto p (.recording claim now))
    | _ => none
  | .commitRecord p leaseNow =>
    match s.pc p with
    | .recording claim now =>
      match recordAttempt s.db claim.step.runId claim.step.id (some claim.lease.ownerId)
          (some claim.lease.fenceToken) now leaseNow with
      | .ok (db, step) => some
        { s.goto p (.attempted claim step) with
          db := db
          heartbeats := s.heartbeats ++ [⟨p, claim.lease, none⟩] }
      | .error _ => some (s.goto p (.finishing claim))
    | _ => none
  | .send p =>
    match s.pc p with
    | .attempted claim step => some
      { s.goto p (.waiting claim step s.sent.length) with sent := s.sent ++ [requestOf step] }
    | _ => none
  | .resolve p outcome now =>
    match s.pc p with
    | .waiting claim step _ =>
      match decideOutcome (d.settings p) step now outcome with
      | some decision => some (s.goto p (.decided claim step decision))
      | none => some (s.goto p (.finishing claim))
    | _ => none
  | .beginDecision p now =>
    match s.pc p with
    | .decided claim step decision => some (s.goto p (.committing claim step decision now))
    | _ => none
  | .commitDecision p leaseNow =>
    match s.pc p with
    | .committing claim step decision now =>
      match commit s.db claim.lease step decision now leaseNow with
      | .ok db => some { s.goto p (.finishing claim) with db := db }
      | .error _ => some (s.goto p (.finishing claim))
    | _ => none
  | .abandon p =>
    match s.pc p with
    | .claimed claim | .recording claim _ | .attempted claim _ | .waiting claim _ _
    | .decided claim _ _ | .committing claim _ _ _ => some (s.goto p (.finishing claim))
    | _ => some (s.goto p .idle)
  | .beginRelease p now =>
    match s.pc p with
    | .finishing claim => some (s.goto p (.releasing claim now))
    | _ => none
  | .commitRelease p =>
    match s.pc p with
    | .releasing claim now => some
      { s.goto p .idle with
        db := (releaseLease s.db claim.step.runId claim.lease.ownerId claim.lease.fenceToken now).1 }
    | _ => none
  | .readHeartbeat i now =>
    s.heartbeats[i]?.map fun h =>
      { s with heartbeats := s.heartbeats.set i { h with reading := some now } }
  | .renewHeartbeat i =>
    match s.heartbeats[i]? with
    | some ⟨p, lease, some now⟩ =>
      let heartbeats := s.heartbeats.set i ⟨p, lease, none⟩
      match renewLease s.db lease.runId lease.ownerId lease.fenceToken
          (d.settings p).leaseTtlSeconds now with
      | .ok (db, _) => some { s with db := db, heartbeats := heartbeats }
      | .error _ => some { s with heartbeats := heartbeats }
    | _ => none
  | .crash p => some
    { s.goto p .idle with heartbeats := s.heartbeats.filter fun h => h.process ≠ p }
  | .readHistory p runId =>
    match s.pc p with
    | .idle =>
      match listEvents s.db runId with
      | .error _ => some s
      | .ok history =>
        match reduceWorkflowRunHistory history with
        | .error _ => some s
        | .ok rebuilt => some (s.goto p (.rebuilding runId history rebuilt))
    | _ => none
  | .readCreation p =>
    match s.pc p with
    | .rebuilding runId history rebuilt =>
      match listEvents s.db runId with
      | .error _ => some (s.goto p .idle)
      | .ok again =>
        match creationPayload again with
        | none => some (s.goto p .idle)
        | some created => some (s.goto p (.rewriting runId history rebuilt created))
    | _ => none
  | .commitRebuild p =>
    match s.pc p with
    | .rewriting runId _ rebuilt created =>
      match rebuildProjection s.db runId rebuilt created with
      | .ok db => some { s.goto p .idle with db := db }
      | .error _ => some (s.goto p .idle)
    | _ => none

/-- Executions in which rebuild_projection is not called. -/
def noRebuild (_ : State) (a : Action) : Prop :=
  ∀ p runId, a ≠ .readHistory p runId

section Example

def onboarding : WorkflowDefinition where
  name := "onboarding"
  steps := [⟨"charge", [], .charge "c-1" 2500⟩,
    ⟨"provision", ["charge"], .provision "c-1" "standard"⟩]
  nameLength := by decide
  stepsLength := by decide
  stepsAccepted := by decide
  graph := by decide

/- Every process has the same worker id. -/
def sharedWorker : Deployment :=
  ⟨fun _ => "worker", fun _ => ⟨3, .finite 1, .finite 60, .finite 30⟩, fun _ => "mock-tool"⟩

end Example

end Crashsafe
