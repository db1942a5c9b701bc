import Crashsafe.Models
import Crashsafe.Library.Execution

/- The mock tool and its ledger, a second database with no transaction in common with the
   engine's. Calls of `execute` overlap: the lookup, the injected failure, the transaction of
   `apply` and the reply of one call interleave with those of the others, and the process may
   crash and start again between any two of them. -/
namespace Crashsafe

structure IdempotencyResult where
  operationKey : String
  operation : StepName
  requestHash : String
  response : ToolResult
  createdAt : Datetime

structure SideEffect where
  id : String
  operationKey : String
  operation : StepName
  request : Json
  createdAt : Datetime

structure ToolStore where
  idempotencyResults : List IdempotencyResult
  sideEffects : List SideEffect

/- What the tool takes from its libraries: the request a payload validates to, dumped, or an
   error; and the SHA-256 of a dumped request's canonical text. -/
structure ToolCodec where
  modelValidate : StepName → Json → Option Json
  requestHash : Json → String

inductive ToolError where
  | idempotencyConflict (operationKey : String)
  | integrityError
  deriving DecidableEq, Repr

section Store
variable (codec : ToolCodec) (store : ToolStore)

def ToolStore.lookup (operation : StepName) (operationKey : String) (request : Json) :
    Except ToolError (Option ToolResult) :=
  match store.idempotencyResults.find? fun row => row.operationKey = operationKey with
  | none => .ok none
  | some row =>
    if row.operation ≠ operation ∨ row.requestHash ≠ codec.requestHash request then
      .error (.idempotencyConflict operationKey)
    else .ok (some { row.response with deduplicated := true })

def ToolStore.find (operation : StepName) (operationKey : String) (request : Json) :
    Except ToolError (Option ToolResult) :=
  store.lookup codec operation operationKey request

/- `hex` is the random part of the reference id, which is the primary key of side_effects. -/
def ToolStore.apply (operation : StepName) (operationKey : String) (request : Json) (hex : String)
    (now : Datetime) : Except ToolError (ToolStore × ToolResult × Bool) :=
  match store.lookup codec operation operationKey request with
  | .error e => .error e
  | .ok (some saved) => .ok (store, saved, false)
  | .ok none =>
    let referenceId := s!"{operation.value}_{hex}"
    let result : ToolResult := ⟨operation, referenceId, false⟩
    if ∃ e ∈ store.sideEffects, e.id = referenceId ∨ e.operationKey = operationKey then
      .error .integrityError
    else
      .ok ({ idempotencyResults := store.idempotencyResults ++
               [⟨operationKey, operation, codec.requestHash request, result, now⟩]
             sideEffects := store.sideEffects ++
               [⟨referenceId, operationKey, operation, request, now⟩] },
        result, true)

end Store

inductive Reply where
  | result (result : ToolResult)
  | refused (statusCode : Nat) (detail : String) (retryAfter : Option String)
  deriving DecidableEq, Repr

def conflictReply : Reply := .refused 409 "idempotency key conflicts with an earlier request" none

def throttledReply (retryAfter : String) : Reply :=
  .refused 429 "mock tool is temporarily throttled" (some retryAfter)

/- Any other exception in the handler. -/
def errorReply : Reply := .refused 500 "Internal Server Error" none

structure ToolConfig where
  retryAfter : String
  failFirstN : Int
  forcedFailureOperation : Option StepName

/- How far a call of `execute` has come. -/
inductive Phase where
  | started (request : Json)
  | missed (request : Json)
  | admitted (request : Json)
  | replying (reply : Reply)
  | answered (reply : Reply)
  | lost

def Phase.request? : Phase → Option Json
  | .started request | .missed request | .admitted request => some request
  | _ => none

def Phase.reply? : Phase → Option Reply
  | .replying reply | .answered reply => some reply
  | _ => none

def Phase.answered? : Phase → Option Reply
  | .answered reply => some reply
  | _ => none

structure ToolCall where
  operation : StepName
  operationKey : String
  payload : Json
  phase : Phase

structure ToolState where
  store : ToolStore
  forcedFailures : Int
  operationFailurePending : Bool
  calls : List ToolCall

def ToolState.initial (config : ToolConfig) : ToolState :=
  ⟨⟨[], []⟩, config.failFirstN, config.forcedFailureOperation.isSome, []⟩

def ToolState.reply? (s : ToolState) (i : Nat) : Option Reply :=
  s.calls[i]?.bind (·.phase.reply?)

def ToolState.advance (s : ToolState) (i : Nat) (call : ToolCall) (phase : Phase) : ToolState :=
  { s with calls := s.calls.set i { call with phase := phase } }

/- `i` is a call; `roll` is whether `rng.random() < flaky_rate`. -/
inductive ToolAction where
  | arrive (operation : StepName) (operationKey : String) (payload : Json)
  | find (i : Nat)
  | inject (i : Nat) (roll : Bool)
  | apply (i : Nat) (hex : String) (now : Datetime)
  | answer (i : Nat)
  | fail (i : Nat)
  | crash

/-- The failure lock's section and the roll after it. -/
def ToolState.inject (config : ToolConfig) (s : ToolState) (i : Nat) (call : ToolCall)
    (request : Json) (roll : Bool) : ToolState :=
  let throttled := s.advance i call (.replying (throttledReply config.retryAfter))
  if 0 < s.forcedFailures then { throttled with forcedFailures := s.forcedFailures - 1 }
  else if s.operationFailurePending ∧ config.forcedFailureOperation = some call.operation then
    { throttled with operationFailurePending := false }
  else if roll then throttled
  else s.advance i call (.admitted request)

def toolStep (config : ToolConfig) (codec : ToolCodec) (s : ToolState) : ToolAction → Option ToolState
  | .arrive operation operationKey payload =>
    let phase := match codec.modelValidate operation payload with
      | some request => .started request
      | none => .replying errorReply
    some { s with calls := s.calls ++ [⟨operation, operationKey, payload, phase⟩] }
  | .find i => s.calls[i]?.bind fun call =>
    match call.phase with
    | .started request =>
      match s.store.find codec call.operation call.operationKey request with
      | .error _ => some (s.advance i call (.replying conflictReply))
      | .ok (some committed) => some (s.advance i call (.replying (.result committed)))
      | .ok none => some (s.advance i call (.missed request))
    | _ => none
  | .inject i roll => s.calls[i]?.bind fun call =>
    match call.phase with
    | .missed request => some (s.inject config i call request roll)
    | _ => none
  | .apply i hex now => s.calls[i]?.bind fun call =>
    match call.phase with
    | .admitted request =>
      match s.store.apply codec call.operation call.operationKey request hex now with
      | .error (.idempotencyConflict _) => some (s.advance i call (.replying conflictReply))
      | .error .integrityError => some (s.advance i call (.replying errorReply))
      | .ok (store, result, _) =>
        some { s.advance i call (.replying (.result result)) with store := store }
    | _ => none
  | .answer i => s.calls[i]?.bind fun call =>
    match call.phase with
    | .replying reply => some (s.advance i call (.answered reply))
    | _ => none
  | .fail i => s.calls[i]?.bind fun call =>
    match call.phase with
    | .answered _ | .lost => none
    | _ => some (s.advance i call (.replying errorReply))
  | .crash =>
    let lose (call : ToolCall) := match call.phase with
      | .answered _ => call
      | _ => { call with phase := .lost }
    some
      { ToolState.initial config with store := s.store, calls := s.calls.map lose }

end Crashsafe
