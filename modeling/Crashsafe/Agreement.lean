import Crashsafe.Takeover
import Crashsafe.ReadBack

/- The projection of every run agrees with its history in every state the workers reach. -/
namespace Crashsafe
open Rows Replay Execution

/-- A process that may still write to the run of its claim. -/
def Active (pc : Pc) (claim : ClaimedStep) : Prop :=
  pc.unrecorded? = some claim ∨ ∃ step, pc.attempt? = some (claim, step)

/- The rows of a run read as the run its history folds to. -/
def Projected (v : RunView) (runId : String) : Prop :=
  v.runs ≠ [] → ∃ run, Consistent runId v run

/- A claim that could still pass the lease check is a claim on a run that has not ended. -/
structure Faithful (s : State) : Prop where
  guarded : Guarded s
  projected : ∀ runId, Projected (s.db.view runId) runId
  running : ∀ p claim, Active (s.pc p) claim →
    pairOf claim.lease ∈ (s.db.view claim.lease.runId).pairs →
      ∃ row ∈ (s.db.view claim.lease.runId).runs, row.status = .running

section Kept
variable {d : Deployment} {s t : State} {a : Action}

theorem active_claim {pc : Pc} {claim : ClaimedStep} (active : Active pc claim) :
    pc.claim? = some claim := by
  rcases active with unrecorded | ⟨step, attempt⟩
  · exact unrecorded_claim unrecorded
  · exact attempt_claim attempt

theorem active_effect (effect : Effect d s a t) {p : Nat} {claim : ClaimedStep}
    (active : Active (t.pc p) claim) :
    Active (s.pc p) claim ∨ ∃ now, Granted s.db (d.workerId p) now t.db claim := by
  rcases active with unrecorded | ⟨step, attempt⟩
  · rcases unrecorded_effect effect unrecorded with before | ⟨_, now, granted⟩
    · exact .inl (.inl before)
    · exact .inr ⟨now, granted⟩
  · rcases attempt_effect effect attempt with before | ⟨now, leaseNow, row, was, _⟩
    · exact .inl (.inr ⟨step, before⟩)
    · exact .inl (.inl (by rw [was]; rfl))

/-- The move of a worker that passes the lease check finds its run running. -/
theorem mover_running (faithful : Faithful s) {runId stepId : String} {write : Write}
    (mover : MovedBy s t runId stepId a write) :
    ∃ row ∈ (s.db.view runId).runs, row.status = .running := by
  cases mover with
  | recorded p claim step now leaseNow was after here named pair =>
    subst here
    exact faithful.running p claim (.inl (by rw [was]; rfl)) pair
  | decided p claim step decision now leaseNow was after here named pair =>
    subst here
    exact faithful.running p claim (.inr ⟨step, by rw [was]; rfl⟩) pair

theorem projected_moved {runId : String} {v w : RunView} {row : StepRow} {now : Datetime}
    {write : Write} (before : Projected v runId) (member : row ∈ v.steps)
    (live : ∃ r ∈ v.runs, r.status = .running) (move : RunMove runId v row now write w) :
    ∃ run, Consistent runId w run := by
  obtain ⟨r, present, running⟩ := live
  obtain ⟨run, consistent⟩ := before (List.ne_nil_of_mem present)
  have status : run.status = .running := (consistent_status consistent present).trans running
  exact move_consistent consistent status member move

theorem projected_leases {runId : String} {v w : RunView} (before : Projected v runId)
    (rest : w = { v with leases := w.leases }) : Projected w runId := by
  rw [rest]
  intro present
  obtain ⟨run, consistent⟩ := before present
  exact ⟨run, consistent_leases consistent _⟩

theorem projected_effect (faithful : Faithful s) (effect : Effect d s a t) (runId : String) :
    Projected (t.db.view runId) runId := by
  have before := faithful.projected runId
  cases effect_view faithful.guarded.coherent effect runId with
  | same view => exact view ▸ before
  | created definition toolKey defaultToolKey now absent done =>
    obtain ⟨run, consistent, _⟩ := creation_consistent absent done
    exact fun _ => ⟨run, consistent⟩
  | moved row now write member move mover =>
    exact fun _ => projected_moved before member (mover_running faithful mover) move
  | granted owner now claim granted => exact projected_leases before (granted_view granted runId)
  | touched pairs rest => exact projected_leases before rest
  | rebuilt p history rebuilt created acted was done =>
    have unread := faithful.guarded.unread p
    rw [was] at unread
    cases unread

theorem attempt_move_runs {runId : String} {v w : RunView} {row : StepRow} {now : Datetime}
    {owner : Option String} {token : Option Int}
    (move : RunMove runId v row now (.attempt owner token) w) : w.runs = v.runs := by
  cases move
  rfl

theorem running_effect (faithful : Faithful s) (effect : Effect d s a t) (p : Nat) (claim : ClaimedStep)
    (active : Active (t.pc p) claim)
    (held : pairOf claim.lease ∈ (t.db.view claim.lease.runId).pairs) :
    ∃ row ∈ (t.db.view claim.lease.runId).runs, row.status = .running := by
  rcases active_effect effect active with before | ⟨now, granted⟩
  · obtain ⟨pair, change⟩ := held_change faithful.guarded effect (active_claim before) held
    have running := faithful.running p claim before pair
    cases change with
    | kept rest =>
      rw [rest]
      exact running
    | recorded row step now now' owner token was after member named move =>
      rw [attempt_move_runs move]
      exact running
    | decided row step decision now now' was after =>
      rw [after] at active
      rcases active with unrecorded | ⟨_, attempt⟩
      · cases unrecorded
      · cases attempt
  · obtain ⟨_, _, run, member, eligible, _⟩ := granted.selected
    rw [granted_view granted claim.lease.runId]
    exact ⟨run, member, eligible.2.1⟩

theorem faithful_start : Faithful State.initial := by
  refine ⟨guarded_start, fun runId present => absurd rfl present, fun p claim active => ?_⟩
  rcases active with unrecorded | ⟨step, attempt⟩
  · cases unrecorded
  · cases attempt

theorem faithful_reachable (reached : Reachable (step d) noRebuild State.initial s) : Faithful s := by
  refine reachable_invariant faithful_start ?_ reached
  intro s a t before faithful may taken
  have effect := step_effect taken
  exact ⟨guarded_reachable (.next before may taken), projected_effect faithful effect,
    running_effect faithful effect⟩

/-- A run with a history has a projection that agrees with it. -/
theorem history_consistent (faithful : Faithful s) {runId : String}
    (begun : (s.db.view runId).events ≠ []) : ∃ run, Consistent runId (s.db.view runId) run := by
  refine faithful.projected runId fun none => begun ?_
  rw [(faithful.guarded.coherent.tidy runId).absent none]
  rfl

theorem row_consistent (faithful : Faithful s) {runId : String} {row : StepRow}
    (member : row ∈ (s.db.view runId).steps) : ∃ run, Consistent runId (s.db.view runId) run := by
  apply faithful.projected runId
  intro none
  rw [(faithful.guarded.coherent.tidy runId).absent none] at member
  cases member

theorem get_workflow_run_consistent {db : Database} {runId : String} {run : WorkflowRun}
    (consistent : Consistent runId (db.view runId) run) : getWorkflowRun db runId = .ok run := by
  obtain ⟨row, rows, same⟩ := consistent.row
  have rows : db.runsOf runId = [row] := rows
  simp only [getWorkflowRun, rows]
  rw [same]
  rfl

theorem projected_consistent (reached : Reachable (step d) noRebuild State.initial s)
    {runId : String} {returned : WorkflowRun} (projected : getWorkflowRun s.db runId = .ok returned) :
    Consistent runId (s.db.view runId) returned := by
  have present : (s.db.view runId).runs ≠ [] := by
    intro none
    have none : s.db.runsOf runId = [] := none
    simp [getWorkflowRun, none] at projected
  obtain ⟨run, consistent⟩ := (faithful_reachable reached).projected runId present
  obtain rfl : run = returned :=
    Except.ok.inj ((get_workflow_run_consistent consistent).symm.trans projected)
  exact consistent

end Kept

/-- Every run in the database reads as what its history reduces to. -/
theorem projections_match_histories {d : Deployment} {s : State}
    (reached : Reachable (step d) noRebuild State.initial s) :
    ∀ row ∈ s.db.workflowRuns, ProjectionMatches s.db row.runId := by
  intro row member
  have faithful := faithful_reachable reached
  have present : (s.db.view row.runId).runs ≠ [] :=
    List.ne_nil_of_mem (mem_ofKey.mpr ⟨member, rfl⟩)
  exact (projection_matches_iff (faithful.guarded.coherent.tidy row.runId)).mpr
    (faithful.projected row.runId present)

/- A worker charges, waits out a retry, charges again and releases the run. -/
def retriedCharge : List Action :=
  [.beginCreate 0 "a1" onboarding none 1, .commitCreate 0, .beginClaim 0 2, .commitClaim 0 0,
    .beginRecord 0 3, .commitRecord 0 4, .send 0, .resolve 0 (.retryable "busy" none true) 5,
    .beginDecision 0 6, .commitDecision 0 7, .beginRelease 0 8, .commitRelease 0,
    .beginClaim 1 2000000, .commitClaim 1 0, .beginRecord 1 2000001, .commitRecord 1 2000002]

def chargeInFlight : List Action := retriedCharge.take 7

theorem retried_charge_matches_history :
    ∃ s, run (step sharedWorker) State.initial retriedCharge = some s ∧
      s.db.workflowRuns.map (·.runId) = ["a1"] ∧ (s.db.eventsOf "a1").length = 4 ∧
      ∀ row ∈ s.db.workflowRuns, ProjectionMatches s.db row.runId := by
  have rows : (run (step sharedWorker) State.initial retriedCharge).map (fun s =>
      (s.db.workflowRuns.map (·.runId), (s.db.eventsOf "a1").length)) = some (["a1"], 4) := by
    decide +kernel
  obtain ⟨s, ran, rows⟩ := Option.map_eq_some_iff.mp rows
  refine ⟨s, ran, congrArg Prod.fst rows, congrArg Prod.snd rows,
    projections_match_histories (reachable_run retriedCharge ?_ .start ran)⟩
  simp [retriedCharge, noRebuild]

end Crashsafe
