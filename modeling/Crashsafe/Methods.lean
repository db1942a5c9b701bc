import Crashsafe.Bookkeeping
import Crashsafe.Library.Execution

/- The public mutation methods called one after another with any arguments, as the tests call
   them: the lease pair is presented or both halves are omitted. -/
namespace Crashsafe
open Rows Replay Execution

structure TransitionArgs where
  runId : String
  stepId : String
  ownerId : Option String
  fenceToken : Option Int
  now : Datetime
  leaseNow : Datetime

inductive Call where
  | createWorkflowRun (definition : WorkflowDefinition) (toolKey : Option String)
      (defaultToolKey runId : String) (now : Datetime)
  | claimRunnableStep (ownerId : String) (leaseTtl : PyFloat) (now : Datetime) (choice : Nat)
  | recordAttempt (args : TransitionArgs)
  | scheduleRetry (args : TransitionArgs) (error : String) (nextAttemptAt : Datetime)
      (throttleTool : Bool)
  | failStep (args : TransitionArgs) (error : String)
  | completeStep (args : TransitionArgs) (output : Json)

/- `none` is a call that raises: its transaction rolls back. Of the claims SQL leaves open,
   `choice` is the one granted; an empty selection returns None and writes nothing. -/
def call (db : Database) : Call → Option Database
  | .createWorkflowRun definition toolKey defaultToolKey runId now =>
    (createWorkflowRun db definition toolKey defaultToolKey runId now).toOption
  | .claimRunnableStep ownerId leaseTtl now choice =>
    match claimRunnableStep db ownerId leaseTtl now with
    | .error _ => none
    | .ok [] => some db
    | .ok outcomes => outcomes[choice]?.map Prod.fst
  | .recordAttempt a =>
    (recordAttempt db a.runId a.stepId a.ownerId a.fenceToken a.now a.leaseNow).toOption.map Prod.fst
  | .scheduleRetry a error nextAttemptAt throttleTool =>
    (scheduleRetry db a.runId a.stepId error nextAttemptAt a.ownerId a.fenceToken throttleTool a.now
      a.leaseNow).toOption
  | .failStep a error =>
    (failStep db a.runId a.stepId error a.ownerId a.fenceToken a.now a.leaseNow).toOption
  | .completeStep a output =>
    (completeStep db a.runId a.stepId output a.ownerId a.fenceToken a.now a.leaseNow).toOption

def Call.asks : Call → Option (TransitionArgs × Write)
  | .recordAttempt a => some (a, .attempt a.ownerId a.fenceToken)
  | .scheduleRetry a error nextAttemptAt _ => some (a, .retry error nextAttemptAt)
  | .failStep a error => some (a, .fail error)
  | .completeStep a output => some (a, .complete output)
  | _ => none

/-- Everything a call that returns may have done. -/
inductive CallEffect (db : Database) (c : Call) (db' : Database) : Prop where
  | nothing (same : db' = db) (quiet : ∀ a error, c ≠ .failStep a error)
  | created (definition : WorkflowDefinition) (toolKey : Option String)
      (defaultToolKey runId : String) (now : Datetime)
      (done : createWorkflowRun db definition toolKey defaultToolKey runId now = .ok db')
      (quiet : ∀ a error, c ≠ .failStep a error)
  | claimed (ownerId : String) (now : Datetime) (claim : ClaimedStep)
      (granted : Granted db ownerId now db' claim) (quiet : ∀ a error, c ≠ .failStep a error)
  | moved (a : TransitionArgs) (write : Write) (row : StepRow) (asked : c.asks = some (a, write))
      (committed : Committed db a.runId a.stepId a.ownerId a.fenceToken a.now a.leaseNow write db' row)

theorem call_effect {db db' : Database} {c : Call} (h : call db c = some db') :
    CallEffect db c db' := by
  cases c with
  | createWorkflowRun definition toolKey defaultToolKey runId now =>
    exact .created definition toolKey defaultToolKey runId now (to_option_some.mp h)
      fun _ _ => Call.noConfusion
  | claimRunnableStep ownerId leaseTtl now choice =>
    simp only [call] at h
    split at h
    · cases h
    · cases h
      exact .nothing rfl fun _ _ => Call.noConfusion
    · rename_i outcomes _ claims
      obtain ⟨⟨after, claim⟩, chosen, same⟩ := Option.map_eq_some_iff.mp h
      cases same
      exact .claimed ownerId now claim (claim_ok claims (List.mem_of_getElem? chosen))
        fun _ _ => Call.noConfusion
  | recordAttempt a =>
    obtain ⟨⟨after, step⟩, recorded, same⟩ := Option.map_eq_some_iff.mp h
    cases same
    obtain ⟨row, committed, _⟩ := record_attempt_ok (to_option_some.mp recorded)
    exact .moved a _ row rfl committed
  | scheduleRetry a error nextAttemptAt throttleTool =>
    obtain ⟨row, committed⟩ := schedule_retry_ok (to_option_some.mp h)
    exact .moved a _ row rfl committed
  | failStep a error =>
    obtain ⟨row, committed⟩ := fail_step_ok (to_option_some.mp h)
    exact .moved a _ row rfl committed
  | completeStep a output =>
    rcases complete_step_ok (to_option_some.mp h) with ⟨same, _⟩ | ⟨row, committed⟩
    · exact .nothing same fun _ _ => Call.noConfusion
    · exact .moved a _ row rfl committed

theorem asks_fail {c : Call} {a : TransitionArgs} {error : String}
    (h : c.asks = some (a, .fail error)) : c = .failStep a error := by
  cases c <;> simp_all [Call.asks]

end Crashsafe
