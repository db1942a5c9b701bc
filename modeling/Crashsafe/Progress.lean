import Crashsafe.Agreement
import Crashsafe.Library.DependencyOrder

/- A running run always has a step to go on with, and once every deadline has passed a claim
   finds one. -/
namespace Crashsafe
open Rows Replay Execution DependencyOrder

/-- Steps that wait for nothing but deadlines: not started, in flight or to be retried. -/
def StepReady (run : WorkflowRun) (step : StepRecord) : Prop :=
  step.status ∈ runnableStatuses ∧
    ∀ d ∈ step.dependsOn, ∃ dep ∈ run.steps, dep.id = d ∧ dep.status = .completed

/-- No retry deadline, lease expiry or throttle in the database is later than `now`. -/
structure PastDeadlines (db : Database) (now : Datetime) : Prop where
  retries : ∀ row ∈ db.steps, ∀ deadline ∈ row.nextAttemptAt, deadline ≤ now
  leases : ∀ lease ∈ db.workflowRunLeases, lease.leaseExpiresAt ≤ now
  throttles : ∀ throttle ∈ db.toolThrottles, throttle.blockedUntil ≤ now

section Ready
variable {runId : String} {v : RunView} {run : WorkflowRun}

/-- The graph of a run that has not ended has an unfinished step with nothing before it. -/
theorem ready_step (h : Consistent runId v run) (running : run.status = .running) :
    ∃ step ∈ run.steps, StepReady run step := by
  obtain ⟨_, _, created, sound⟩ := consistent_sound h
  obtain ⟨unfailed, unfinished, inside, notDone⟩ := (settle_ok.mp h.settled).2 running
  obtain ⟨_, _, _, creation, _⟩ := sound.bracketed.creation
  obtain ⟨_, _, _, _, order, ordered, listed, covers⟩ := validate_definitions_ok creation.valid
  have ids : created.steps.map (·.id) = run.steps.map (·.id) := by
    rw [← sound.snapshots, List.map_map]
    rfl
  have fresh : ∀ step ∈ run.steps, step.status ≠ .completed → step.id ∉ completedIds run.steps := by
    intro step member open' done
    obtain ⟨other, there, completed, same⟩ := completed_ids_mem.mp done
    exact open' (List.inj_on_of_nodup_map sound.distinct there member same ▸ completed)
  have left : ∃ x ∈ order, x ∉ completedIds run.steps :=
    ⟨unfinished.id, covers _ (ids ▸ List.mem_map_of_mem inside), fresh unfinished inside notDone⟩
  obtain ⟨x, member, missing, ready⟩ := ordered_ready ordered (· ∈ completedIds run.steps) left
  have known := listed x member
  rw [ids] at known
  obtain ⟨step, present, rfl⟩ := List.mem_map.mp known
  refine ⟨step, present, ?_, fun d needed => ?_⟩
  · have notDone : step.status ≠ .completed := fun completed =>
      missing (completed_ids_mem.mpr ⟨step, present, completed, rfl⟩)
    have notFailed := unfailed step present
    cases status : step.status <;> simp_all [runnableStatuses]
  · rw [← sound_depends sound present] at needed
    obtain ⟨dep, there, completed, same⟩ := completed_ids_mem.mp (ready d needed)
    exact ⟨dep, there, same, completed⟩

end Ready

section Claiming
variable {db : Database} {runId : String} {run : WorkflowRun} {now : Datetime}

theorem throttle_past (past : ∀ throttle ∈ db.toolThrottles, throttle.blockedUntil ≤ now)
    (toolKey : String) : throttleAllows db now toolKey = true := by
  unfold throttleAllows
  split
  · rfl
  · rename_i throttle found
    exact decide_eq_true (past throttle (List.mem_of_find?_eq_some found))

theorem lease_past (past : ∀ lease ∈ db.workflowRunLeases, lease.leaseExpiresAt ≤ now)
    (runId : String) : leaseAllows db now runId = true := by
  unfold leaseAllows
  split
  · rfl
  · rename_i lease found
    exact decide_eq_true (past lease (List.mem_of_find?_eq_some found))

theorem ready_eligible (h : Consistent runId (db.view runId) run) (running : run.status = .running)
    (past : PastDeadlines db now) :
    ∃ row ∈ db.stepsOf runId, ∃ runRow, (row, runRow) ∈ eligibleRows db now true := by
  obtain ⟨step, inside, runnable, ready⟩ := ready_step h running
  obtain ⟨row, member, rfl⟩ := step_stored h inside
  obtain ⟨runRow, rows, same⟩ := h.row
  have present : runRow ∈ (db.view runId).runs := by simp [rows]
  obtain ⟨listed, rowRun⟩ := mem_ofKey.mp member
  obtain ⟨runListed, runNamed⟩ := mem_ofKey.mp present
  have unblocked : ¬ Blocked db row.runId row.id := by
    rw [rowRun, blocked_view]
    apply ready_unblocked h
    intro d needed
    obtain ⟨dep, there, named, completed⟩ := ready d needed
    exact completed_ids_mem.mpr ⟨dep, there, completed, named⟩
  have eligible : Eligible db now true row runRow :=
    ⟨runNamed.trans rowRun.symm, (consistent_status h present).symm.trans running, runnable,
      past.retries row listed, fun _ => throttle_past past.throttles row.toolKey,
      fun _ => lease_past past.leases row.runId, unblocked⟩
  exact ⟨row, member, runRow, mem_eligible_rows.mpr ⟨listed, runListed, eligible⟩⟩

/-- A selection from eligible rows finds a first one. -/
theorem select_runnable_nonempty {pair : StepRow × WorkflowRunRow} {includeLease : Bool}
    (eligible : pair ∈ eligibleRows db now includeLease) : selectRunnable db now includeLease ≠ [] := by
  let key : StepRow × WorkflowRunRow → Datetime ×ₗ Int := fun x => toLex (x.2.createdAt, x.1.position)
  obtain ⟨least, chosen⟩ : ∃ least, least ∈ (eligibleRows db now includeLease).argmin key := by
    cases found : (eligibleRows db now includeLease).argmin key with
    | none =>
      rw [List.argmin_eq_none.mp found] at eligible
      cases eligible
    | some least => exact ⟨least, rfl⟩
  have first : ∀ other ∈ eligibleRows db now includeLease, ¬ Precedes other least := by
    intro other member before
    have less : key other < key least := Prod.Lex.toLex_lt_toLex.mpr before
    exact List.not_lt_of_mem_argmin member chosen less
  have selected : least.1 ∈ selectRunnable db now includeLease := by
    refine List.mem_map_of_mem (List.mem_filter.mpr ⟨List.argmin_mem chosen, ?_⟩)
    exact decide_eq_true first
  exact List.ne_nil_of_mem selected

theorem eligible_unleased {s : StepRow} {w : WorkflowRunRow} (eligible : Eligible db now true s w) :
    Eligible db now false s w := by
  obtain ⟨named, running, runnable, due, _, _, unblocked⟩ := eligible
  exact ⟨named, running, runnable, due, nofun, nofun, unblocked⟩

/-- While no claim could be refused for a lease or a throttle, the claims that may be granted are
    for the steps that `next_runnable_step` may show. -/
theorem claims_as_shown {ownerId : String} {leaseTtl : PyFloat} {outcomes : List (Database × ClaimedStep)}
    (leases : ∀ lease ∈ db.workflowRunLeases, lease.leaseExpiresAt ≤ now)
    (throttles : ∀ throttle ∈ db.toolThrottles, throttle.blockedUntil ≤ now)
    (claimed : claimRunnableStep db ownerId leaseTtl now = .ok outcomes) :
    outcomes.map (fun outcome => outcome.2.step) = nextRunnableStep db now := by
  have eligible (s : StepRow) (w : WorkflowRunRow) : Eligible db now true s w ↔ Eligible db now false s w := by
    refine ⟨eligible_unleased, fun ⟨named, running, runnable, due, _, _, unblocked⟩ => ?_⟩
    exact ⟨named, running, runnable, due, fun _ => throttle_past throttles s.toolKey,
      fun _ => lease_past leases s.runId, unblocked⟩
  have rows : eligibleRows db now true = eligibleRows db now false := by
    simp only [eligibleRows, eligible]
  unfold claimRunnableStep at claimed
  split at claimed
  · cases claimed
  · cases claimed
    simp only [nextRunnableStep, selectRunnable, rows, List.map_map]
    rfl

/-- A claim is granted only while `next_runnable_step` has a step to show. -/
theorem claims_shown {ownerId : String} {leaseTtl : PyFloat} {outcomes : List (Database × ClaimedStep)}
    (claimed : claimRunnableStep db ownerId leaseTtl now = .ok outcomes) (granted : outcomes ≠ []) :
    nextRunnableStep db now ≠ [] := by
  obtain ⟨⟨db', claim⟩, chosen⟩ := List.exists_mem_of_ne_nil outcomes granted
  obtain ⟨row, member, run, present, eligible, _⟩ := (claim_ok claimed chosen).selected
  have listed : (row, run) ∈ eligibleRows db now false :=
    mem_eligible_rows.mpr ⟨(mem_ofKey.mp member).1, (mem_ofKey.mp present).1, eligible_unleased eligible⟩
  simpa [nextRunnableStep] using select_runnable_nonempty listed

end Claiming

/-- A running run has a step to go on with; past every deadline, a claim whose lease would expire
    at a representable time is granted. -/
theorem running_run_claimable {d : Deployment} {s : State}
    (reached : Reachable (step d) noRebuild State.initial s) {runId : String} {run : WorkflowRun}
    (read : getWorkflowRun s.db runId = .ok run) (running : run.status = .running) :
    (∃ step ∈ run.steps, StepReady run step) ∧ ∀ now, PastDeadlines s.db now →
      (∃ row ∈ s.db.stepsOf runId, ∃ runRow, (row, runRow) ∈ eligibleRows s.db now true) ∧
      ∀ ownerId leaseTtl, (now.plusSeconds leaseTtl).isSome → ∃ outcomes,
        claimRunnableStep s.db ownerId leaseTtl now = .ok outcomes ∧ outcomes ≠ [] := by
  have h := projected_consistent reached read
  refine ⟨ready_step h running, fun now past => ?_⟩
  obtain ⟨row, member, runRow, eligible⟩ := ready_eligible h running past
  refine ⟨⟨row, member, runRow, eligible⟩, fun ownerId leaseTtl fits => ?_⟩
  obtain ⟨expires, fits⟩ := Option.isSome_iff_exists.mp fits
  simp only [claimRunnableStep, fits]
  exact ⟨_, rfl, by simpa using select_runnable_nonempty eligible⟩

section Example

instance (db : Database) (now : Datetime) : Decidable (PastDeadlines db now) :=
  decidable_of_iff
    ((∀ row ∈ db.steps, ∀ deadline ∈ row.nextAttemptAt, deadline ≤ now) ∧
      (∀ lease ∈ db.workflowRunLeases, lease.leaseExpiresAt ≤ now) ∧
      ∀ throttle ∈ db.toolThrottles, throttle.blockedUntil ≤ now)
    ⟨fun ⟨retries, leases, throttles⟩ => ⟨retries, leases, throttles⟩,
      fun h => ⟨h.retries, h.leases, h.throttles⟩⟩

/-- In its last half minute the calendar has no time left for a lease to expire at. -/
theorem last_claim_raises : ∃ s, run (step sharedWorker) State.initial (retriedCharge.take 2) = some s ∧
    Reachable (step sharedWorker) noRebuild State.initial s ∧
    s.db.workflowRuns.map (fun row => (row.runId, row.status)) = [("a1", .running)] ∧
    PastDeadlines s.db maxDatetime ∧
    claimRunnableStep s.db "worker" (.finite 30) maxDatetime = .error .overflowError := by
  have told : (run (step sharedWorker) State.initial (retriedCharge.take 2)).map (fun s =>
      (s.db.workflowRuns.map (fun row => (row.runId, row.status)),
        decide (PastDeadlines s.db maxDatetime))) = some ([("a1", .running)], true) := by
    decide +kernel
  obtain ⟨s, ran, told⟩ := Option.map_eq_some_iff.mp told
  have never : Datetime.plusSeconds maxDatetime (.finite 30) = none := by decide +kernel
  refine ⟨s, ran, reachable_run (retriedCharge.take 2) (by simp [retriedCharge, noRebuild]) .start ran,
    congrArg Prod.fst told, of_decide_eq_true (congrArg Prod.snd told), ?_⟩
  simp only [claimRunnableStep, never]

/-- A charge waits for its retry; at its deadline and that of the cooldown it can be claimed. -/
theorem retry_claimable : ∃ s run,
    Execution.run (step sharedWorker) State.initial (retriedCharge.take 12) = some s ∧
    getWorkflowRun s.db "a1" = .ok run ∧ run.steps.map (·.status) = [.retryWait, .pending] ∧
    ∃ outcomes, claimRunnableStep s.db "worker" (.finite 30) 2000000 = .ok outcomes ∧ outcomes ≠ [] := by
  have told : ((Execution.run (step sharedWorker) State.initial (retriedCharge.take 12)).bind fun s =>
      (getWorkflowRun s.db "a1").toOption.map fun run =>
        (run.status, run.steps.map (·.status), decide (PastDeadlines s.db 2000000))) =
          some (.running, [.retryWait, .pending], true) := by
    decide +kernel
  obtain ⟨s, ran, told⟩ := Option.bind_eq_some_iff.mp told
  obtain ⟨run, read, told⟩ := Option.map_eq_some_iff.mp told
  have read := to_option_some.mp read
  have reached : Reachable (step sharedWorker) noRebuild State.initial s :=
    reachable_run (retriedCharge.take 12) (by simp [retriedCharge, noRebuild]) .start ran
  simp only [Prod.mk.injEq, decide_eq_true_eq] at told
  obtain ⟨running, statuses, past⟩ := told
  have fits : (Datetime.plusSeconds 2000000 (.finite 30)).isSome := by decide +kernel
  exact ⟨s, run, ran, read, statuses,
    ((running_run_claimable reached read running).2 2000000 past).2 "worker" (.finite 30) fits⟩

end Example

end Crashsafe
