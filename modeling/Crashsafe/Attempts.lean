import Crashsafe.Requests

/- The attempts that workers have on record. While its worker keeps the lease, an attempt is
   the current one of its step. -/
namespace Crashsafe
open Rows Replay Execution

/-- The step is still at the attempt that the worker has recorded. -/
def InFlight (db : Database) (claim : ClaimedStep) (step : StepRecord) : Prop :=
  pairOf claim.lease ∈ (db.view claim.lease.runId).pairs →
    ∃ row ∈ (db.view claim.lease.runId).steps, row.id = step.id ∧ row.status = .intentRecorded ∧
      row.attempts = step.attempts

section Attempts
variable {d : Deployment} {s t : State} {a : Action}

theorem in_flight_effect (guarded : Guarded s) (effect : Effect d s a t)
    (before : ∀ p claim step, (s.pc p).attempt? = some (claim, step) → InFlight s.db claim step)
    (p : Nat) (claim : ClaimedStep) (step : StepRecord)
    (held : (t.pc p).attempt? = some (claim, step)) : InFlight t.db claim step := by
  intro pair
  rcases attempt_effect effect held with earlier | ⟨now, leaseNow, row, was, _, committed, same⟩
  · obtain ⟨pair, change⟩ := held_change guarded effect (attempt_claim earlier) pair
    obtain ⟨row, member, current⟩ := before p claim step earlier pair
    cases change with
    | kept rest => exact ⟨row, by rw [rest]; exact member, current⟩
    | recorded _ _ _ _ _ _ was =>
      rw [was] at earlier
      cases earlier
    | decided _ _ _ _ _ _ after =>
      rw [after] at held
      cases held
  · have sameRun := (guarded.coherent.claims p claim (by rw [was]; rfl)).2
    refine ⟨setAttempt (row.attempts + 1) now row, ?_, by rw [same]; rfl, rfl, by rw [same]; rfl⟩
    rw [← sameRun, move_steps committed.move]
    exact mem_updateWhere.mpr ⟨row, committed.member, by simp [Write.set]⟩

theorem in_flight_reachable (reached : Reachable (step d) noRebuild State.initial s) :
    ∀ p claim step, (s.pc p).attempt? = some (claim, step) → InFlight s.db claim step := by
  refine reachable_invariant (P := fun s => ∀ p claim step,
    (s.pc p).attempt? = some (claim, step) → InFlight s.db claim step) ?_ ?_ reached
  · intro p claim step held
    cases held
  · intro s a t before inFlight may taken
    exact in_flight_effect (guarded_reachable before) (step_effect taken) inFlight

end Attempts

end Crashsafe
