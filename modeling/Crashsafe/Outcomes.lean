import Crashsafe.Gateway
import Crashsafe.Attempts

/- What becomes of the outcome of a call. An outcome that run_once turns into a decision is
   committed while the lease lasts; an exception on the way leaves the attempt open. -/
namespace Crashsafe
open Rows Replay Execution

section Deciding
variable {settings : Settings} {tried : StepRecord} {now : Datetime}

end Deciding

/-- The lease a worker holds on its run at the time of a commit. -/
def LeaseValid (db : Database) (lease : WorkflowRunLease) (leaseNow : Datetime) : Prop :=
  ∃ row ∈ db.workflowRunLeases, row.runId = lease.runId ∧ row.ownerId = lease.ownerId ∧
    row.fenceToken = lease.fenceToken ∧ leaseNow < row.leaseExpiresAt

section Committing
variable {d : Deployment} {s : State} {db db' : Database}

theorem lease_valid_accepted {lease : WorkflowRunLease} {leaseNow : Datetime} {row : StepRow}
    (valid : LeaseValid db lease leaseNow) (here : row.runId = lease.runId) :
    requireLease db row (some lease.ownerId) (some lease.fenceToken) leaseNow = .ok () := by
  obtain ⟨stored, member, run, owner, token, fresh⟩ := valid
  have owned : ownsLease row.runId lease.ownerId lease.fenceToken stored = true := by
    simp [ownsLease, run, owner, token, here]
  simp only [requireLease]
  exact if_pos ⟨stored, member, owned, fresh⟩

theorem lease_valid_pair {lease : WorkflowRunLease} {leaseNow : Datetime}
    (valid : LeaseValid db lease leaseNow) : pairOf lease ∈ (db.view lease.runId).pairs := by
  obtain ⟨stored, member, run, owner, token, _⟩ := valid
  refine List.mem_map.mpr ⟨stored, mem_ofKey.mpr ⟨member, run⟩, ?_⟩
  simp [pairOf, owner, token]

/-- An attempt in flight can be decided. -/
theorem commit_accepts {lease : WorkflowRunLease} {tried : StepRecord} {decision : Decision}
    {now leaseNow : Datetime} {row : StepRow} (found : getStepRow db tried.runId tried.id = .ok row)
    (held : requireLease db row (some lease.ownerId) (some lease.fenceToken) leaseNow = .ok ())
    (active : row.status = .intentRecorded) :
    ∃ db' row', commit db lease tried decision now leaseNow = .ok db' ∧
      Committed db tried.runId tried.id (some lease.ownerId) (some lease.fenceToken) now leaseNow
        decision.write db' row' := by
  have checked : requireActiveAttempt db row (some lease.ownerId) (some lease.fenceToken) leaseNow =
      .ok () := by
    simp [requireActiveAttempt, held, active]
  cases decision with
  | retry error nextAttemptAt throttleTool =>
    obtain ⟨db', stored⟩ : ∃ db', scheduleRetry db tried.runId tried.id error nextAttemptAt
        (some lease.ownerId) (some lease.fenceToken) throttleTool now leaseNow = .ok db' := by
      simp only [scheduleRetry, found, checked]
      cases throttleTool <;> exact ⟨_, rfl⟩
    obtain ⟨row', committed⟩ := schedule_retry_ok stored
    exact ⟨db', row', stored, committed⟩
  | fail error =>
    obtain ⟨db', stored⟩ : ∃ db', failStep db tried.runId tried.id error (some lease.ownerId)
        (some lease.fenceToken) now leaseNow = .ok db' := by
      simp only [failStep, found, checked]
      exact ⟨_, rfl⟩
    obtain ⟨row', committed⟩ := fail_step_ok stored
    exact ⟨db', row', stored, committed⟩
  | complete output =>
    obtain ⟨db', stored⟩ : ∃ db', completeStep db tried.runId tried.id output (some lease.ownerId)
        (some lease.fenceToken) now leaseNow = .ok db' := by
      simp only [completeStep, found, held, active, ne_eq, not_true_eq_false, ↓reduceIte]
      split <;> exact ⟨_, rfl⟩
    rcases complete_step_ok stored with ⟨_, decided⟩ | ⟨row', committed⟩
    · exact absurd active (decided row found)
    · exact ⟨db', row', stored, committed⟩

end Committing

section Example

def throttled (retryAfter : String) : HttpOutcome := .response ⟨429, some retryAfter, ""⟩

end Example

end Crashsafe
