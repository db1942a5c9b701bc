import Crashsafe.Outcomes

/- The state guards of the transitions. While a worker keeps its lease, the step it has claimed
   can be started and the attempt it has recorded can be decided. -/
namespace Crashsafe
open Rows Replay Execution

/-- The claimed step is one of its run. -/
def Listed (db : Database) (claim : ClaimedStep) : Prop :=
  ∃ row ∈ (db.view claim.lease.runId).steps, row.id = claim.step.id

/-- The claimed step can start its next attempt for as long as its worker keeps the lease. -/
def Startable (db : Database) (claim : ClaimedStep) : Prop :=
  pairOf claim.lease ∈ (db.view claim.lease.runId).pairs →
    ∃ row ∈ (db.view claim.lease.runId).steps, row.id = claim.step.id ∧
      row.status ∈ runnableStatuses ∧ ¬ (db.view claim.lease.runId).Blocked row.id

instance (db : Database) (lease : WorkflowRunLease) (leaseNow : Datetime) :
    Decidable (LeaseValid db lease leaseNow) :=
  inferInstanceAs (Decidable (∃ row ∈ db.workflowRunLeases, row.runId = lease.runId ∧
    row.ownerId = lease.ownerId ∧ row.fenceToken = lease.fenceToken ∧ leaseNow < row.leaseExpiresAt))

section Claims
variable {d : Deployment} {s t : State} {a : Action}

theorem granted_startable {owner : String} {now : Datetime} {db db' : Database} {claim : ClaimedStep}
    (granted : Granted db owner now db' claim) :
    ∃ row ∈ (db'.view claim.lease.runId).steps, row.id = claim.step.id ∧
      row.status ∈ runnableStatuses ∧ ¬ (db'.view claim.lease.runId).Blocked row.id := by
  obtain ⟨row, member, run, present, eligible, same⟩ := granted.selected
  have here : row.runId = claim.lease.runId := (mem_ofKey.mp member).2
  have free : ¬ (db.view claim.lease.runId).Blocked row.id := by
    rw [← blocked_view, ← here]
    exact eligible.2.2.2.2.2.2
  rw [granted.rest]
  exact ⟨row, member, by rw [same]; rfl, eligible.2.2.1, free⟩

theorem listed_effect (guarded : Guarded s) (effect : Effect d s a t)
    (before : ∀ p claim, (s.pc p).claim? = some claim → Listed s.db claim) (p : Nat)
    (claim : ClaimedStep) (held : (t.pc p).claim? = some claim) : Listed t.db claim := by
  rcases claim_effect effect held with earlier | ⟨_, now, granted, _⟩
  · obtain ⟨row, member, named⟩ := before p claim earlier
    obtain ⟨after, inside, same, _⟩ := row_kept guarded effect member
    exact ⟨after, inside, (immutable_fields same).2.1.trans named⟩
  · obtain ⟨row, member, named, _⟩ := granted_startable granted
    exact ⟨row, member, named⟩

theorem startable_effect (guarded : Guarded s) (effect : Effect d s a t)
    (before : ∀ p claim, (s.pc p).unrecorded? = some claim → Startable s.db claim) (p : Nat)
    (claim : ClaimedStep) (held : (t.pc p).unrecorded? = some claim) : Startable t.db claim := by
  intro pair
  rcases unrecorded_effect effect held with earlier | ⟨_, now, granted⟩
  · obtain ⟨pair, change⟩ := held_change guarded effect (unrecorded_claim earlier) pair
    obtain ⟨row, member, named, runnable, free⟩ := before p claim earlier pair
    cases change with
    | kept rest =>
      rw [rest]
      exact ⟨row, member, named, runnable, free⟩
    | recorded _ _ _ _ _ _ _ after =>
      rw [after] at held
      cases held
    | decided _ _ _ _ _ _ after =>
      rw [after] at held
      cases held
  · exact granted_startable granted

/- What the guards of a worker's transitions find. -/
structure Actionable (s : State) : Prop where
  listed : ∀ p claim, (s.pc p).claim? = some claim → Listed s.db claim
  startable : ∀ p claim, (s.pc p).unrecorded? = some claim → Startable s.db claim

theorem actionable_start : Actionable State.initial := by
  constructor
  · intro p claim held
    cases held
  · intro p claim held
    cases held

theorem actionable_reachable (reached : Reachable (step d) noRebuild State.initial s) : Actionable s := by
  refine reachable_invariant actionable_start ?_ reached
  intro s a t before opened may taken
  have guarded := guarded_reachable before
  have effect := step_effect taken
  exact ⟨listed_effect guarded effect opened.listed, startable_effect guarded effect opened.startable⟩

end Claims

section Checks
variable {db : Database} {lease : WorkflowRunLease} {leaseNow : Datetime} {row : StepRow}

theorem lease_invalid_lost (invalid : ¬ LeaseValid db lease leaseNow) (here : row.runId = lease.runId) :
    ∃ message, requireLease db row (some lease.ownerId) (some lease.fenceToken) leaseNow =
      .error (.leaseLost message) := by
  simp only [requireLease]
  split
  · rename_i found
    obtain ⟨stored, member, owned, fresh⟩ := found
    simp only [ownsLease, decide_eq_true_eq] at owned
    exact absurd ⟨stored, member, owned.1.trans here, owned.2.1, owned.2.2, fresh⟩ invalid
  · exact ⟨_, rfl⟩

/-- A step that may start and whose lease is held is recorded. -/
theorem record_accepts {runId stepId ownerId : String} {fenceToken : Int} {now : Datetime}
    (found : getStepRow db runId stepId = .ok row)
    (held : requireLease db row (some ownerId) (some fenceToken) leaseNow = .ok ())
    (runnable : row.status ∈ runnableStatuses) (free : ¬ Blocked db runId stepId) :
    ∃ db' tried, recordAttempt db runId stepId (some ownerId) (some fenceToken) now leaseNow =
      .ok (db', tried) := by
  have keeps : ∀ r, immutable (setAttempt (row.attempts + 1) now r) = immutable r := fun _ => rfl
  have reread := get_step_row_updated (appendEvent db runId
    (attemptPayload row (some ownerId) (some fenceToken)) now (some stepId)
    (some (row.attempts + 1)) attemptEventSchemaVersion) keeps
    (by exact found : getStepRow _ runId stepId = .ok row)
  simp only [recordAttempt, found, held, runnable, not_true_eq_false, ↓reduceIte, free,
    Option.isSome_some, reread]
  exact ⟨_, _, rfl⟩

theorem record_lost {runId stepId : String} {owner : Option String} {token : Option Int}
    {now : Datetime} {e : StorageError} (found : getStepRow db runId stepId = .ok row)
    (lost : requireLease db row owner token leaseNow = .error e) :
    recordAttempt db runId stepId owner token now leaseNow = .error e := by
  simp [recordAttempt, found, lost]

theorem commit_lost {tried : StepRecord} {decision : Decision} {now : Datetime} {e : StorageError}
    (found : getStepRow db tried.runId tried.id = .ok row)
    (lost : requireLease db row (some lease.ownerId) (some lease.fenceToken) leaseNow = .error e) :
    commit db lease tried decision now leaseNow = .error e := by
  cases decision <;> simp [commit, scheduleRetry, failStep, completeStep, requireActiveAttempt, found, lost]

end Checks

/-- The event that tells the outcome decided on. -/
def Decision.outcome : Decision → EventPayload
  | .retry error nextAttemptAt _ => .stepRetryScheduled ⟨error, nextAttemptAt⟩
  | .fail error => .stepFailed ⟨error⟩
  | .complete output => .stepCompleted ⟨output⟩

/-- The history grows by this outcome of this attempt first. -/
def Records (before after : List WorkflowRunEvent) (tried : StepRecord) (outcome : EventPayload) :
    Prop :=
  ∃ e more, after = before ++ e :: more ∧ e.payload = some outcome ∧
    e.eventType = outcome.eventType ∧ e.stepId = some tried.id ∧ e.attempt = some tried.attempts

theorem decision_recorded {runId : String} {v w : RunView} {row : StepRow} {now : Datetime}
    {decision : Decision} {tried : StepRecord} (named : row.id = tried.id)
    (number : row.attempts = tried.attempts) (move : RunMove runId v row now decision.write w) :
    Records v.events w.events tried decision.outcome := by
  have here : some row.id = some tried.id ∧ some row.attempts = some tried.attempts := by
    simp [named, number]
  cases decision with
  | retry error nextAttemptAt throttleTool =>
    cases move
    exact ⟨_, [], rfl, rfl, rfl, here⟩
  | fail error =>
    cases move
    exact ⟨_, [_], List.append_assoc _ _ _, rfl, rfl, here⟩
  | complete output =>
    cases move with
    | completed output active w written more =>
      rw [written]
      exact ⟨_, [], rfl, rfl, rfl, here⟩
    | finished output active w written all =>
      rw [written]
      exact ⟨_, [_], List.append_assoc _ _ _, rfl, rfl, here⟩

/-- What the calls of run_once to the transitions come to: a lost lease is the one thing that can
    stop them. -/
structure LeaseDecides (d : Deployment) (s : State) : Prop where
  recording : ∀ p claim now leaseNow, s.pc p = .recording claim now →
    if LeaseValid s.db claim.lease leaseNow then
      ∃ db tried, recordAttempt s.db claim.step.runId claim.step.id (some claim.lease.ownerId)
        (some claim.lease.fenceToken) now leaseNow = .ok (db, tried)
    else
      ∃ message, recordAttempt s.db claim.step.runId claim.step.id (some claim.lease.ownerId)
        (some claim.lease.fenceToken) now leaseNow = .error (.leaseLost message)
  committing : ∀ p claim tried decision now leaseNow, s.pc p = .committing claim tried decision now →
    if LeaseValid s.db claim.lease leaseNow then
      ∃ db, commit s.db claim.lease tried decision now leaseNow = .ok db ∧
        Records (s.db.eventsOf tried.runId) (db.eventsOf tried.runId) tried decision.outcome
    else ∃ message, commit s.db claim.lease tried decision now leaseNow = .error (.leaseLost message)
  success : ∀ p claim tried request result now, s.pc p = .waiting claim tried request →
    ∃ t, step d s (.resolve p (.result result) now) = some t ∧
      ∀ actions u now' leaseNow, (∀ s, ∀ a ∈ actions, noRebuild s a) → run (step d) t actions = some u →
        u.pc p = .committing claim tried (.complete result.modelDump) now' →
        LeaseValid u.db claim.lease leaseNow →
        ∃ v, step d u (.commitDecision p leaseNow) = some v ∧
          Records (u.db.eventsOf tried.runId) (v.db.eventsOf tried.runId) tried
            (.stepCompleted ⟨result.modelDump⟩)

section Reached
variable {d : Deployment} {s : State}

theorem recording_decided (reached : Reachable (step d) noRebuild State.initial s) {p : Nat}
    {claim : ClaimedStep} {now : Datetime} (leaseNow : Datetime) (was : s.pc p = .recording claim now) :
    if LeaseValid s.db claim.lease leaseNow then
      ∃ db tried, recordAttempt s.db claim.step.runId claim.step.id (some claim.lease.ownerId)
        (some claim.lease.fenceToken) now leaseNow = .ok (db, tried)
    else
      ∃ message, recordAttempt s.db claim.step.runId claim.step.id (some claim.lease.ownerId)
        (some claim.lease.fenceToken) now leaseNow = .error (.leaseLost message) := by
  have opened := actionable_reachable reached
  have coherent := (guarded_reachable reached).coherent
  have tidy := coherent.tidy claim.lease.runId
  have sameRun := (coherent.claims p claim (by rw [was]; rfl)).2
  rw [sameRun]
  split
  · rename_i valid
    obtain ⟨row, member, named, runnable, free⟩ :=
      opened.startable p claim (by rw [was]; rfl) (lease_valid_pair valid)
    have found := get_step_row_unique tidy member
    have held := lease_valid_accepted valid (mem_ofKey.mp member).2
    rw [named] at found free
    exact record_accepts found held runnable (by rwa [blocked_view])
  · rename_i invalid
    obtain ⟨row, member, named⟩ := opened.listed p claim (by rw [was]; rfl)
    obtain ⟨message, lost⟩ := lease_invalid_lost invalid (mem_ofKey.mp member).2
    have found := get_step_row_unique tidy member
    rw [named] at found
    exact ⟨message, record_lost found lost⟩

theorem committing_decided (reached : Reachable (step d) noRebuild State.initial s) {p : Nat}
    {claim : ClaimedStep} {tried : StepRecord} {decision : Decision} {now : Datetime}
    (leaseNow : Datetime) (was : s.pc p = .committing claim tried decision now) :
    if LeaseValid s.db claim.lease leaseNow then
      ∃ db, commit s.db claim.lease tried decision now leaseNow = .ok db ∧
        Records (s.db.eventsOf tried.runId) (db.eventsOf tried.runId) tried decision.outcome
    else ∃ message, commit s.db claim.lease tried decision now leaseNow = .error (.leaseLost message) := by
  have coherent := (guarded_reachable reached).coherent
  have attempt : (s.pc p).attempt? = some (claim, tried) := by rw [was]; rfl
  have sameRun := coherent.attempts p claim tried attempt
  have tidy := coherent.tidy tried.runId
  split
  · rename_i valid
    obtain ⟨row, member, named, active, number⟩ :=
      in_flight_reachable reached p claim tried attempt (lease_valid_pair valid)
    rw [← sameRun] at member
    have found := get_step_row_unique tidy member
    rw [named] at found
    have held := lease_valid_accepted valid ((mem_ofKey.mp member).2.trans sameRun)
    have accepted : ∃ db' row', commit s.db claim.lease tried decision now leaseNow = .ok db' ∧
        Committed s.db tried.runId tried.id (some claim.lease.ownerId) (some claim.lease.fenceToken)
          now leaseNow decision.write db' row' := commit_accepts found held active
    obtain ⟨db', row', stored, committed⟩ := accepted
    obtain rfl : row' = row := List.inj_on_of_nodup_map tidy.distinct committed.member member
      (committed.named.trans named.symm)
    exact ⟨db', stored, decision_recorded named number committed.move⟩
  · rename_i invalid
    obtain ⟨row, member, named⟩ := (actionable_reachable reached).listed p claim (attempt_claim attempt)
    rw [← sameRun] at member
    obtain ⟨message, lost⟩ :=
      lease_invalid_lost invalid ((mem_ofKey.mp member).2.trans sameRun)
    have found := get_step_row_unique tidy member
    rw [named, ← coherent.decisions p claim tried attempt] at found
    exact ⟨message, commit_lost found lost⟩

end Reached

/-- In every reachable state, a lost lease is all that makes a worker's transition raise; every
    other outcome is stored for the attempt it belongs to. -/
theorem only_lease_loss_raises {d : Deployment} {s : State}
    (reached : Reachable (step d) noRebuild State.initial s) : LeaseDecides d s := by
  refine ⟨fun p claim now leaseNow was => recording_decided reached leaseNow was,
    fun p claim tried decision now leaseNow was => committing_decided reached leaseNow was, ?_⟩
  intro p claim tried request result now was
  have taken : step d s (.resolve p (.result result) now) =
      some (s.goto p (.decided claim tried (.complete result.modelDump))) := by
    simp [step, was, decideOutcome]
  refine ⟨_, taken, fun actions u now' leaseNow quiet ran committing valid => ?_⟩
  have resolved : noRebuild s (.resolve p (.result result) now) := by simp [noRebuild]
  have later : Reachable (step d) noRebuild State.initial u :=
    reachable_run actions quiet (.next reached resolved taken) ran
  have decided := committing_decided later leaseNow committing
  rw [if_pos valid] at decided
  obtain ⟨db, stored, recorded⟩ := decided
  exact ⟨{ u.goto p (.finishing claim) with db := db }, by simp [step, committing, stored], recorded⟩

/- Process 0 has its result when its lease has run out, and process 1 is about to try again. -/
def supersededCharge : List Action :=
  chargeInFlight ++ [.resolve 0 (.result ⟨.charge, "charge-1", false⟩) 5, .beginDecision 0 6,
    .beginClaim 1 40000000, .commitClaim 1 0, .beginRecord 1 40000001]

theorem superseded_charge_decided :
    ∃ s, run (step sharedWorker) State.initial supersededCharge = some s ∧
      [0, 1].map (fun p => (s.pc p).claim?.map fun claim =>
        decide (LeaseValid s.db claim.lease 40000002)) = [some false, some true] ∧
      LeaseDecides sharedWorker s := by
  have leases : (run (step sharedWorker) State.initial supersededCharge).map (fun s =>
      [0, 1].map fun p => (s.pc p).claim?.map fun claim =>
        decide (LeaseValid s.db claim.lease 40000002)) = some [some false, some true] := by
    decide +kernel
  obtain ⟨s, ran, leases⟩ := Option.map_eq_some_iff.mp leases
  refine ⟨s, ran, leases, only_lease_loss_raises (reachable_run supersededCharge ?_ .start ran)⟩
  simp [supersededCharge, chargeInFlight, retriedCharge, noRebuild]

end Crashsafe
