import Crashsafe.History
import Crashsafe.Library.Rows

/- build_timeline: a second fold over a run's events, next to the reducer's. Times are instants,
   so a difference of two of them is a number of microseconds. -/
namespace Crashsafe
open Rows

structure TimelineEntry where
  sequence : Int
  elapsedMs : Int
  occurredAt : Datetime
  eventType : EventType
  stepId : Option String
  operation : Option StepName
  attempt : Option Int
  workerId : Option String
  fenceToken : Option Int
  waitMs : Option Int
  detail : Option String
  deriving Repr

structure TimelineSummary where
  status : WorkflowRunStatus
  durationMs : Int
  attempts : Int
  retries : Int
  plannedWaitMs : Int
  stepDurationMs : List (String × Int)
  deriving Repr

structure WorkflowRunTimeline where
  runId : String
  entries : List TimelineEntry
  summary : TimelineSummary
  deriving Repr

/- The exceptions build_timeline may leave by; the third is a payload its model rejects. -/
inductive TimelineError where
  | valueError (message : String)
  | historyIntegrity (e : HistoryIntegrityError)
  | validationError
  | typeError (message : String)
  deriving DecidableEq, Repr

section Dicts
variable {α : Type}

/- A dict with text keys is the list of its items in insertion order. Assigning to a key it
   has replaces the value in place. -/
def getItem? (items : List (String × α)) (key : String) : Option α :=
  (items.find? fun item => item.1 = key).map Prod.snd

def setItem (items : List (String × α)) (key : String) (value : α) : List (String × α) :=
  upsert Prod.fst (fun old new => (old.1, new.2)) (key, value) items

def setDefault (items : List (String × α)) (key : String) (value : α) : List (String × α) :=
  upsert Prod.fst (fun old _ => old) (key, value) items

end Dicts

/- `round(delta.total_seconds() * 1000)`; no timedelta comes near the largest double. -/
def milliseconds (delta : Int) : Int :=
  roundHalfEven (nearestDouble (nearestDouble (delta / 1000000) * 1000))

/- Python's truth value. -/
def Json.truthy : Json → Bool
  | .null => false
  | .bool b => b
  | .num q => q ≠ 0
  | .nan | .inf _ => true
  | .str s => s ≠ ""
  | .arr items => !items.isEmpty
  | .obj fields => !fields.isEmpty

/- `str` is Python's: a decoded number no longer tells how Python writes it. CPython's limit of
   4300 digits on the text of an integer is left out: no decoded payload reaches it. -/
def completionDetail (str : Json → String) (output : Json) : String :=
  let reference := match output.get? "reference_id" with
    | some reference => str reference
    | none => match output.get? "receipt" with
      | some receipt => str receipt
      | none => "persisted"
  let suffix := if ((output.get? "deduplicated").map Json.truthy).getD false then " deduplicated" else ""
  s!"result={reference}{suffix}"

/- What the loop over the events has collected. -/
structure TimelineState where
  entries : List TimelineEntry
  attempts : Int
  retries : Int
  plannedWaitMs : Int
  firstAttemptAt : List (String × Datetime)
  stepDurationMs : List (String × Int)

def TimelineState.initial : TimelineState := ⟨[], 0, 0, 0, [], []⟩

def TimelineState.add (state : TimelineState) (entry : TimelineEntry) : TimelineState :=
  { state with entries := state.entries ++ [entry] }

/-- `operations`. -/
def operationsOf (rebuilt : WorkflowRun) : List (String × StepName) :=
  rebuilt.steps.foldl (fun operations step => setItem operations step.id step.operation) []

/-- The values every entry starts from. -/
def plainEntry (rebuilt : WorkflowRun) (origin : Datetime) (event : WorkflowRunEvent) :
    TimelineEntry where
  sequence := event.sequence
  elapsedMs := milliseconds (event.occurredAt - origin)
  occurredAt := event.occurredAt
  eventType := event.eventType
  stepId := event.stepId
  operation := getItem? (operationsOf rebuilt) (event.stepId.getD "")
  attempt := event.attempt
  workerId := none
  fenceToken := none
  waitMs := none
  detail := none

def started (state : TimelineState) (event : WorkflowRunEvent) : TimelineState :=
  { state with
    attempts := state.attempts + 1
    firstAttemptAt := match event.stepId with
      | some stepId => setDefault state.firstAttemptAt stepId event.occurredAt
      | none => state.firstAttemptAt }

def completed (state : TimelineState) (event : WorkflowRunEvent) : TimelineState :=
  match event.stepId with
  | none => state
  | some stepId =>
    match getItem? state.firstAttemptAt stepId with
    | none => state
    | some first =>
      { state with
        stepDurationMs := setItem state.stepDurationMs stepId (milliseconds (event.occurredAt - first)) }

/-- The body of the loop over the events. -/
def timelineEvent (str : Json → String) (rebuilt : WorkflowRun) (origin : Datetime)
    (state : TimelineState) (event : WorkflowRunEvent) : Except TimelineError TimelineState :=
  let values := plainEntry rebuilt origin event
  match parsePayload event.eventType event.payload with
  | none => .error .validationError
  | some payload =>
    match event.eventType with
    | .workflowRunCreated => .ok <| state.add
      { values with detail := some s!"{rebuilt.steps.length} materialized steps persisted" }
    | .stepAttemptStarted =>
      match payload with
      | .stepAttemptStarted payload => .ok <| (started state event).add
        { values with
          workerId := payload.workerId
          fenceToken := payload.fenceToken
          detail := some s!"intent persisted; key={payload.operationKey}" }
      | _ => .error (.typeError "expected StepAttemptStartedPayload")
    | .stepRetryScheduled =>
      match payload with
      | .stepRetryScheduled retry =>
        let waitMs := max 0 (milliseconds (retry.nextAttemptAt - event.occurredAt))
        .ok <| TimelineState.add
          { state with
            retries := state.retries + 1
            plannedWaitMs := state.plannedWaitMs + waitMs }
          { values with waitMs := some waitMs, detail := some retry.error }
      | _ => .error (.typeError "expected StepRetryScheduledPayload")
    | .stepCompleted =>
      match payload with
      | .stepCompleted payload => .ok <| (completed state event).add
        { values with detail := some (completionDetail str payload.output) }
      | _ => .error (.typeError "expected StepCompletedPayload")
    | .stepFailed =>
      match payload with
      | .stepFailed failed => .ok <| state.add { values with detail := some failed.error }
      | _ => .error (.typeError "expected StepFailedPayload")
    | .workflowRunCompleted => .ok <| state.add
      { values with detail := some "all committed steps complete" }
    | .workflowRunFailed =>
      let error := match payload with
        | .workflowRunFailed failed => failed.error
        | _ => "workflow run failed"
      .ok <| state.add { values with detail := some error }

def buildTimeline (str : Json → String) :
    List WorkflowRunEvent → Except TimelineError WorkflowRunTimeline
  | [] => .error (.valueError "cannot build a timeline without events")
  | first :: rest =>
    match reduceWorkflowRunHistory (first :: rest) with
    | .error e => .error (.historyIntegrity e)
    | .ok rebuilt =>
      let origin := first.occurredAt
      match Replay.replay (timelineEvent str rebuilt origin) .initial (first :: rest) with
      | .error e => .error e
      | .ok state => .ok
        { runId := first.runId
          entries := state.entries
          summary :=
            { status := rebuilt.status
              durationMs := milliseconds
                (((first :: rest).getLast (List.cons_ne_nil first rest)).occurredAt - origin)
              attempts := state.attempts
              retries := state.retries
              plannedWaitMs := state.plannedWaitMs
              stepDurationMs := state.stepDurationMs } }

end Crashsafe
