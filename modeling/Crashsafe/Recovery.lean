import Crashsafe.Answering
import Crashsafe.Progress
import Crashsafe.Guards

/- Recovery. Whatever crashed and wherever, one process that reads a time past every deadline can
   bring all running runs to their end, with nobody's help but the tool's. -/
namespace Crashsafe
open Rows Execution

/-- How many steps there are to complete. -/
def unfinished (db : Database) : Nat := db.steps.countP fun row => row.status ≠ .completed

def statusOf (db : Database) (runId : String) : Option WorkflowRunStatus :=
  (db.runsOf runId).head?.map (·.status)

/-- Runs stay as they are or come from running to completed. -/
def Finishes (db db' : Database) : Prop :=
  ∀ runId, statusOf db' runId = statusOf db runId ∨
    statusOf db runId = some .running ∧ statusOf db' runId = some .completed

section Tables
variable {db db' : Database} {runId stepId : String} {owner : Option String} {token : Option Int}
  {now leaseNow : Datetime}

theorem record_tables {tried : StepRecord}
    (h : recordAttempt db runId stepId owner token now leaseNow = .ok (db', tried)) :
    ∃ row, getStepRow db runId stepId = .ok row ∧ row.status ∈ runnableStatuses ∧ db' = { db with
      steps := updateWhere (fun row => row.runId = runId ∧ row.id = stepId) (setAttempt
        (row.attempts + 1) now) db.steps
      workflowRunEvents := db'.workflowRunEvents } := by
  unfold recordAttempt at h
  split at h
  · cases h
  rename_i row found
  split at h
  · cases h
  split at h
  · cases h
  rename_i runnable
  split at h
  · cases h
  dsimp only at h
  split at h
  · cases h
  · cases h
    exact ⟨row, found, by simpa using runnable, rfl⟩

/-- The runs that a completed step leaves are those before, one of them perhaps completed. -/
theorem complete_tables {output : Json}
    (h : completeStep db runId stepId output owner token now leaseNow = .ok db')
    (changed : db' ≠ db) :
    (∃ row, getStepRow db runId stepId = .ok row ∧ row.status = .intentRecorded) ∧
      (db'.workflowRuns = db.workflowRuns ∨ db'.workflowRuns =
        updateWhere (fun row => row.runId = runId) (setRunCompleted now) db.workflowRuns) ∧
      db' = { db with
        steps := updateWhere (fun row => row.runId = runId ∧ row.id = stepId) (setCompleted output now)
          db.steps
        workflowRuns := db'.workflowRuns
        workflowRunEvents := db'.workflowRunEvents } := by
  unfold completeStep at h
  split at h
  · cases h
  rename_i row found
  split at h
  · cases h
  split at h
  · cases h
    exact absurd rfl changed
  rename_i active
  dsimp only at h
  refine ⟨⟨row, found, by simpa using active⟩, ?_⟩
  split at h
  · cases h
    exact ⟨.inr rfl, rfl⟩
  · cases h
    exact ⟨.inl rfl, rfl⟩

theorem unfinished_completed {output : Json} {row : StepRow} (found : getStepRow db runId stepId = .ok row)
    (active : row.status = .intentRecorded) :
    (updateWhere (fun row => row.runId = runId ∧ row.id = stepId) (setCompleted output now)
      db.steps).countP (fun row => row.status ≠ .completed) < unfinished db := by
  obtain ⟨member, named⟩ := get_step_row_ok found
  obtain ⟨member, here⟩ := mem_ofKey.mp member
  apply countP_updateWhere_lt
  · intro r selected
    simp [setCompleted]
  · exact ⟨row, member, by simp [here, named], by simp [active]⟩

end Tables

/- The database while a lone process works on its claim: its lease lasts, every other deadline
   has passed. -/
structure Working (db : Database) (lease : WorkflowRunLease) (now : Datetime) : Prop where
  held : lease ∈ db.workflowRunLeases
  fresh : now < lease.leaseExpiresAt
  leases : ∀ other ∈ db.workflowRunLeases, other = lease ∨ other.leaseExpiresAt ≤ now
  retries : ∀ row ∈ db.steps, ∀ deadline ∈ row.nextAttemptAt, deadline ≤ now
  throttles : ∀ throttle ∈ db.toolThrottles, throttle.blockedUntil ≤ now

/-- The rows of runs and steps a part of a round leaves, but for attempts it records. -/
structure SameWork (db db' : Database) : Prop where
  runs : db'.workflowRuns = db.workflowRuns
  length : db'.steps.length = db.steps.length
  left : unfinished db' = unfinished db

section Parts
variable {db db' : Database} {lease : WorkflowRunLease} {now : Datetime}

theorem working_valid (working : Working db lease now) : LeaseValid db lease now :=
  ⟨lease, working.held, rfl, rfl, rfl, working.fresh⟩

theorem working_claimed {ownerId : String} {expires : Datetime} {row : StepRow}
    (past : PastDeadlines db now) (fresh : now < expires) :
    Working (grantLease db ownerId now expires row).1 (grantLease db ownerId now expires row).2.lease now := by
  refine ⟨?_, fresh, ?_, past.retries, past.throttles⟩
  · simp only [grantLease, upsertLease]
    by_cases old : ∃ other ∈ db.workflowRunLeases, other.runId = row.runId
    · obtain ⟨other, member, same⟩ := old
      exact mem_upsert.mpr (.inr (.inl ⟨other, member, same, by simp [replaceLease, same]⟩))
    · push Not at old
      exact mem_upsert.mpr (.inr (.inr ⟨rfl, old⟩))
  · intro other member
    rcases mem_upsert.mp member with ⟨before, _⟩ | ⟨old, _, same, merged⟩ | ⟨rfl, _⟩
    · exact .inr (past.leases other before)
    · rw [← merged]
      simp [replaceLease, grantLease, same]
    · exact .inl rfl

theorem working_updated {p : StepRow → Bool} {set : StepRow → StepRow} {runs : List WorkflowRunRow}
    {events : List WorkflowRunEvent} (working : Working db lease now)
    (clears : ∀ row, (set row).nextAttemptAt = none)
    (same : db' = { db with
      steps := updateWhere p set db.steps
      workflowRuns := runs
      workflowRunEvents := events }) : Working db' lease now := by
  subst same
  refine ⟨working.held, working.fresh, working.leases, ?_, working.throttles⟩
  intro row member deadline waits
  obtain ⟨old, inside, rfl⟩ := mem_updateWhere.mp member
  split at waits
  · rw [clears old] at waits
    cases waits
  · exact working.retries old inside deadline waits

/-- Releasing the one lease that lasts leaves nothing to wait for. -/
theorem past_released (working : Working db lease now) :
    PastDeadlines (releaseLease db lease.runId lease.ownerId lease.fenceToken now).1 now := by
  refine ⟨working.retries, ?_, working.throttles⟩
  intro other member
  obtain ⟨old, inside, rfl⟩ := mem_updateWhere.mp member
  split
  · exact le_rfl
  · rename_i others
    rcases working.leases old inside with rfl | past
    · exact absurd (by simp [ownsLease]) others
    · exact past

theorem finishes_refl (db : Database) : Finishes db db := fun _ => .inl rfl

theorem finishes_trans {db'' : Database} (first : Finishes db db') (later : Finishes db' db'') :
    Finishes db db'' := by
  intro runId
  rcases later runId with same | ⟨was, after⟩
  · rcases first runId with same' | ⟨was', after'⟩
    · exact .inl (same.trans same')
    · exact .inr ⟨was', same.trans after'⟩
  · rcases first runId with same' | ⟨was', after'⟩
    · exact .inr ⟨same'.symm.trans was, after⟩
    · rw [was] at after'
      cases after'

theorem finishes_same (same : db'.workflowRuns = db.workflowRuns) : Finishes db db' := by
  intro runId
  simp [statusOf, Database.runsOf, same]

theorem finishes_completed {target : String}
    (running : ∃ row ∈ db.runsOf target, row.status = .running) (single : (db.runsOf target).length ≤ 1)
    (runs : db'.workflowRuns = db.workflowRuns ∨ db'.workflowRuns =
      updateWhere (fun row => row.runId = target) (setRunCompleted now) db.workflowRuns) :
    Finishes db db' := by
  rcases runs with same | written
  · exact finishes_same same
  intro runId
  have keeps : ∀ row : WorkflowRunRow, decide (row.runId = target) = true →
      (setRunCompleted now row).runId = row.runId := fun _ _ => rfl
  by_cases here : runId = target
  · subst here
    obtain ⟨row, member, running⟩ := running
    have one : db.runsOf runId = [row] := by
      obtain ⟨only, shape⟩ := List.length_eq_one_iff.mp
        (Nat.le_antisymm single (List.length_pos_of_mem member))
      rw [shape] at member ⊢
      rw [List.mem_singleton.mp member]
    have after : db'.runsOf runId = [setRunCompleted now row] := by
      have named : row.runId = runId := (mem_ofKey.mp member).2
      have updated : db'.runsOf runId =
          updateWhere (fun row => row.runId = runId) (setRunCompleted now) (db.runsOf runId) := by
        rw [Database.runsOf, written]
        exact ofKey_updateWhere keeps _
      rw [updated, one]
      simp [updateWhere, named]
    exact .inr ⟨by simp [statusOf, one, running], by simp [statusOf, after, setRunCompleted]⟩
  · left
    have only : ∀ row : WorkflowRunRow, decide (row.runId = target) = true → row.runId = target :=
      fun row selected => of_decide_eq_true selected
    have kept : db'.runsOf runId = db.runsOf runId := by
      rw [Database.runsOf, written]
      exact ofKey_updateWhere_other keeps only here _
    simp [statusOf, kept]

theorem same_work_recorded {runId stepId : String} {owner : Option String} {token : Option Int}
    {tried : StepRecord} (tidy : Tidy runId (db.view runId))
    (h : recordAttempt db runId stepId owner token now now = .ok (db', tried)) : SameWork db db' := by
  obtain ⟨row, found, runnable, same⟩ := record_tables h
  rw [same]
  refine ⟨rfl, by simp [updateWhere], countP_updateWhere_same fun other member selected => ?_⟩
  obtain ⟨here, named⟩ : other.runId = runId ∧ other.id = stepId := by simpa using selected
  have unique := get_step_row_unique tidy (mem_ofKey.mpr ⟨member, here⟩)
  obtain rfl : row = other := Except.ok.inj (found.symm.trans (named ▸ unique))
  have open' : row.status ≠ .completed := by
    intro completed
    simp [completed, runnableStatuses] at runnable
  simp [setAttempt, open']

end Parts

section Round
variable {d : Deployment} {config : ToolConfig} {codec : ToolCodec} {w : World} {p : Nat}
  {now : Datetime} {claim : ClaimedStep}

theorem engine_moves (config : ToolConfig) (codec : ToolCodec) (now : Datetime) {a : Action} {s : State} (mine : a.byAlone p now) (may : honest w (.engine a))
    (taken : step d w.engine a = some s) :
    Reachable (worldStep d config codec) (alone p now) w { w with engine := s } := by
  refine reachable_step (a := .engine a) ⟨may, mine⟩ ?_
  simp [worldStep, taken]

/-- With a run to go on with, the process gets a claim. -/
theorem claims_alone (reached : Reachable (worldStep d config codec) honest (World.initial config) w)
    (idle : w.engine.pc p = .idle) (past : PastDeadlines w.engine.db now) {expires : Datetime}
    (fits : now.plusSeconds (d.settings p).leaseTtlSeconds = some expires) (fresh : now < expires)
    {runId : String} {run : WorkflowRun} (read : getWorkflowRun w.engine.db runId = .ok run)
    (running : run.status = .running) :
    ∃ w' claim, Reachable (worldStep d config codec) (alone p now) w w' ∧
      w'.engine.pc p = .claimed claim ∧ Working w'.engine.db claim.lease now ∧
      SameWork w.engine.db w'.engine.db ∧ w'.tool = w.tool := by
  have consistent := projected_consistent (engine_reachable reached) read
  obtain ⟨row, member, runRow, eligible⟩ := ready_eligible consistent running past
  obtain ⟨chosen, others, selected⟩ := List.exists_cons_of_ne_nil (select_runnable_nonempty eligible)
  let granted := grantLease w.engine.db (d.workerId p) now expires chosen
  have begun : step d w.engine (.beginClaim p now) = some (w.engine.goto p (.claiming now)) := by
    simp [step, idle]
  have claims : claimRunnableStep (w.engine.goto p (.claiming now)).db (d.workerId p)
      (d.settings p).leaseTtlSeconds now =
        .ok (granted :: others.map (grantLease w.engine.db (d.workerId p) now expires)) := by
    change claimRunnableStep w.engine.db _ _ _ = _
    simp only [claimRunnableStep, fits, selected, List.map_cons]
    rfl
  have taken : step d (w.engine.goto p (.claiming now)) (.commitClaim p 0) = some
      { (w.engine.goto p (.claiming now)).goto p (.claimed granted.2) with
        db := granted.1, issued := w.engine.issued ++ [granted.2.lease] } := by
    simp only [step, goto_same, claims]
    rfl
  have first := engine_moves config codec now (a := .beginClaim p now) ⟨rfl, rfl⟩
    trivial begun
  have second := engine_moves config codec now (a := .commitClaim p 0)
    (w := { w with engine := w.engine.goto p (.claiming now) }) rfl trivial taken
  exact ⟨_, granted.2, reachable_trans first second, goto_same, working_claimed past fresh,
    ⟨rfl, rfl, rfl⟩, rfl⟩

/-- A lone process records the attempt it has claimed. -/
theorem records_alone (reached : Reachable (worldStep d config codec) honest (World.initial config) w)
    (claimed : w.engine.pc p = .claimed claim) (working : Working w.engine.db claim.lease now) :
    ∃ w' tried, Reachable (worldStep d config codec) (alone p now) w w' ∧
      w'.engine.pc p = .attempted claim tried ∧ Working w'.engine.db claim.lease now ∧
      SameWork w.engine.db w'.engine.db ∧ w'.tool = w.tool := by
  have begun : step d w.engine (.beginRecord p now) = some (w.engine.goto p (.recording claim now)) := by
    simp [step, claimed]
  have first := engine_moves config codec now (a := .beginRecord p now) ⟨rfl, rfl⟩
    trivial begun
  have there : Reachable (step d) noRebuild State.initial (w.engine.goto p (.recording claim now)) :=
    engine_reachable (reachable_trans reached (alone_honest first))
  have valid : LeaseValid (w.engine.goto p (.recording claim now)).db claim.lease now :=
    working_valid working
  have decided := recording_decided (p := p) there now goto_same
  rw [if_pos valid] at decided
  obtain ⟨db, tried, recorded⟩ := decided
  have taken : step d (w.engine.goto p (.recording claim now)) (.commitRecord p now) = some
      { (w.engine.goto p (.recording claim now)).goto p (.attempted claim tried) with
        db := db, heartbeats := w.engine.heartbeats ++ [⟨p, claim.lease, none⟩] } := by
    simp only [step, goto_same, recorded]
    rfl
  have second := engine_moves config codec now (a := .commitRecord p now)
    (w := { w with engine := w.engine.goto p (.recording claim now) }) ⟨rfl, rfl⟩ trivial taken
  have tidy := (guarded_reachable there).coherent.tidy claim.step.runId
  obtain ⟨_, _, _, same⟩ := record_tables recorded
  exact ⟨_, tried, reachable_trans first second, goto_same,
    working_updated working (fun _ => rfl) same, same_work_recorded tidy recorded, rfl⟩

/-- The result is committed under the lease and completes a step of a running run. -/
theorem completes_alone (reached : Reachable (worldStep d config codec) honest (World.initial config) w)
    {tried : StepRecord} {request : Nat} {result : ToolResult}
    (waits : w.engine.pc p = .waiting claim tried request) (received : Received w p result)
    (working : Working w.engine.db claim.lease now) :
    ∃ w', Reachable (worldStep d config codec) (alone p now) w w' ∧
      w'.engine.pc p = .finishing claim ∧ Working w'.engine.db claim.lease now ∧ w'.tool = w.tool ∧
      w'.engine.db.steps.length = w.engine.db.steps.length ∧
      unfinished w'.engine.db < unfinished w.engine.db ∧ Finishes w.engine.db w'.engine.db := by
  let decision : Decision := .complete result.modelDump
  have resolved : step d w.engine (.resolve p (.result result) now) =
      some (w.engine.goto p (.decided claim tried decision)) := by
    simp [step, waits, decideOutcome, decision]
  have first := engine_moves config codec now (a := .resolve p (.result result) now)
    ⟨rfl, rfl⟩ received resolved
  have begun : step d (w.engine.goto p (.decided claim tried decision)) (.beginDecision p now) =
      some ((w.engine.goto p (.decided claim tried decision)).goto p (.committing claim tried decision now)) := by
    simp [step, goto_same]
  have second := engine_moves config codec now (a := .beginDecision p now)
    (w := { w with engine := w.engine.goto p (.decided claim tried decision) }) ⟨rfl, rfl⟩ trivial begun
  have later := reachable_trans first second
  let s := (w.engine.goto p (.decided claim tried decision)).goto p (.committing claim tried decision now)
  have there : Reachable (step d) noRebuild State.initial s :=
    engine_reachable (reachable_trans reached (alone_honest later))
  have valid : LeaseValid s.db claim.lease now := working_valid working
  have decided := committing_decided (p := p) there now goto_same
  rw [if_pos valid] at decided
  obtain ⟨db, committed, e, more, grown, _⟩ := decided
  have taken : step d s (.commitDecision p now) = some { s.goto p (.finishing claim) with db := db } := by
    have committed : commit ((w.engine.goto p (.decided claim tried decision)).goto p
        (.committing claim tried decision now)).db claim.lease tried decision now now = .ok db := committed
    simp only [step, s, goto_same, committed]
  have third := engine_moves config codec now (a := .commitDecision p now)
    (w := { w with engine := s }) ⟨rfl, rfl⟩ trivial taken
  have changed : db ≠ w.engine.db := by
    rintro rfl
    have lengths := congrArg List.length grown
    change (w.engine.db.eventsOf tried.runId).length = _ at lengths
    simp only [List.length_append, List.length_cons] at lengths
    change _ = (w.engine.db.eventsOf tried.runId).length + _ at lengths
    omega
  obtain ⟨⟨row, found, active⟩, runs, same⟩ := complete_tables committed changed
  have faithful := faithful_reachable there
  have attempt : (s.pc p).attempt? = some (claim, tried) := by simp [s, goto_same, Pc.attempt?]
  have sameRun := faithful.guarded.coherent.attempts p claim tried attempt
  have running := faithful.running p claim (.inr ⟨tried, attempt⟩) (lease_valid_pair valid)
  rw [← sameRun] at running
  refine ⟨_, reachable_trans later third, goto_same, working_updated working (fun _ => rfl) same, rfl, ?_, ?_,
    finishes_completed running (faithful.guarded.coherent.tidy tried.runId).runs runs⟩
  · rw [same]
    exact List.length_map _
  · rw [same]
    exact unfinished_completed found active

/-- A lone process gives its lease back. -/
theorem releases_alone (reached : Reachable (worldStep d config codec) honest (World.initial config) w)
    (finishing : w.engine.pc p = .finishing claim) (working : Working w.engine.db claim.lease now) :
    ∃ w', Reachable (worldStep d config codec) (alone p now) w w' ∧ w'.engine.pc p = .idle ∧
      PastDeadlines w'.engine.db now ∧ w'.tool = w.tool ∧
      w'.engine.db.steps = w.engine.db.steps ∧
      w'.engine.db.workflowRuns = w.engine.db.workflowRuns := by
  have sameRun := ((guarded_reachable (engine_reachable reached)).coherent.claims p claim
    (by rw [finishing]; rfl)).2
  have begun : step d w.engine (.beginRelease p now) = some (w.engine.goto p (.releasing claim now)) := by
    simp [step, finishing]
  have first := engine_moves config codec now (a := .beginRelease p now) ⟨rfl, rfl⟩
    trivial begun
  let released := (releaseLease w.engine.db claim.lease.runId claim.lease.ownerId claim.lease.fenceToken
    now).1
  have taken : step d (w.engine.goto p (.releasing claim now)) (.commitRelease p) = some
      { (w.engine.goto p (.releasing claim now)).goto p .idle with db := released } := by
    simp only [step, goto_same, sameRun]
    rfl
  have second := engine_moves config codec now (a := .commitRelease p)
    (w := { w with engine := w.engine.goto p (.releasing claim now) }) rfl trivial taken
  exact ⟨_, reachable_trans first second, goto_same, past_released working, rfl, rfl, rfl⟩

/-- What lets a lone process start a round. -/
structure Calm (d : Deployment) (config : ToolConfig) (codec : ToolCodec) (p : Nat) (now : Datetime)
    (w : World) : Prop where
  reached : Reachable (worldStep d config codec) honest (World.initial config) w
  idle : w.engine.pc p = .idle
  past : PastDeadlines w.engine.db now
  room : w.engine.db.steps.length < 16 ^ 16
  calm : pendingFailures w.tool = 0

/-- One round of the lone process completes one step. -/
theorem round_alone (revalidates : Revalidates codec) (ready : Calm d config codec p now w)
    {expires : Datetime} (fits : now.plusSeconds (d.settings p).leaseTtlSeconds = some expires)
    (fresh : now < expires) {runId : String} {run : WorkflowRun}
    (read : getWorkflowRun w.engine.db runId = .ok run) (running : run.status = .running) :
    ∃ w', Reachable (worldStep d config codec) (alone p now) w w' ∧ Calm d config codec p now w' ∧
      unfinished w'.engine.db < unfinished w.engine.db ∧ Finishes w.engine.db w'.engine.db := by
  obtain ⟨w₁, claim, to₁, claimed, working, same₁, tool₁⟩ :=
    claims_alone ready.reached ready.idle ready.past fits fresh read running
  have reached₁ := reachable_trans ready.reached (alone_honest to₁)
  obtain ⟨w₂, tried, to₂, attempted, working, same₂, tool₂⟩ := records_alone reached₁ claimed working
  have reached₂ := reachable_trans reached₁ (alone_honest to₂)
  have sent : step d w₂.engine (.send p) = some
      { w₂.engine.goto p (.waiting claim tried w₂.engine.sent.length) with
        sent := w₂.engine.sent ++ [requestOf tried] } := by
    simp [step, attempted]
  have to₃ := engine_moves config codec now (a := .send p) rfl trivial sent
  have reached₃ := reachable_trans reached₂ (alone_honest to₃)
  have length : w₂.engine.db.steps.length = w.engine.db.steps.length := same₂.length.trans same₁.length
  have effects := effects_bounded (joined_reachable reached₃)
  have undelivered : w₂.engine.sent.length ∉ w₂.deliveries := fun delivered =>
    absurd (delivered_sent (joined_reachable reached₂) delivered) (lt_irrefl _)
  obtain ⟨w₄, result, to₄, engine, calm, received⟩ := waiting_answered now revalidates reached₃
    goto_same undelivered (lt_of_le_of_lt effects (length ▸ ready.room))
    ((congrArg pendingFailures (tool₂.trans tool₁)).trans ready.calm)
  have reached₄ := reachable_trans reached₃ (alone_honest to₄)
  have waits : w₄.engine.pc p = .waiting claim tried w₂.engine.sent.length := by
    rw [engine]
    exact goto_same
  have db : w₄.engine.db = w₂.engine.db := by
    rw [engine]
    rfl
  obtain ⟨w₅, to₅, finishing, working, tool₅, length₅, fewer, finishes⟩ :=
    completes_alone reached₄ waits received (db ▸ working)
  have reached₅ := reachable_trans reached₄ (alone_honest to₅)
  obtain ⟨w₆, to₆, idle, past, tool₆, steps, runs⟩ := releases_alone reached₅ finishing working
  refine ⟨w₆, reachable_trans to₁ (reachable_trans to₂ (reachable_trans to₃ (reachable_trans to₄
    (reachable_trans to₅ to₆)))), ⟨reachable_trans reached₅ (alone_honest to₆), idle, past, ?_, ?_⟩,
    ?_, ?_⟩
  · rw [steps, length₅, db, length]
    exact ready.room
  · rw [tool₆, tool₅]
    exact calm
  · rw [unfinished, steps]
    rw [db] at fewer
    exact fewer.trans_eq (same₂.left.trans same₁.left)
  · rw [db] at finishes
    exact finishes_trans (finishes_same (same₂.runs.trans same₁.runs))
      (finishes_trans finishes (finishes_same runs))

end Round

section Recovered
variable {d : Deployment} {config : ToolConfig} {codec : ToolCodec} {w : World} {p : Nat}
  {now : Datetime}

theorem status_read {db : Database} {runId : String} {status : WorkflowRunStatus} :
    statusOf db runId = some status ↔ ∃ run, getWorkflowRun db runId = .ok run ∧ run.status = status := by
  unfold statusOf getWorkflowRun
  cases db.runsOf runId with
  | nil => simp
  | cons row rest => simp [workflowRunFromRows]

theorem rounds_alone (revalidates : Revalidates codec) (ready : Calm d config codec p now w)
    {expires : Datetime} (fits : now.plusSeconds (d.settings p).leaseTtlSeconds = some expires)
    (fresh : now < expires) :
    ∃ w', Reachable (worldStep d config codec) (alone p now) w w' ∧
      Finishes w.engine.db w'.engine.db ∧ ∀ runId, statusOf w'.engine.db runId ≠ some .running := by
  induction left : unfinished w.engine.db using Nat.strong_induction_on generalizing w with
  | _ n ih =>
    by_cases running : ∃ runId, statusOf w.engine.db runId = some .running
    · obtain ⟨runId, running⟩ := running
      obtain ⟨run, read, running⟩ := status_read.mp running
      obtain ⟨w₁, to₁, ready₁, fewer, finishes⟩ :=
        round_alone revalidates ready fits fresh read running
      obtain ⟨w', to', finishes', ended⟩ := ih (unfinished w₁.engine.db) (left ▸ fewer) ready₁ rfl
      exact ⟨w', reachable_trans to₁ to', finishes_trans finishes finishes', ended⟩
    · exact ⟨w, .start, finishes_refl _, fun runId running' => running ⟨runId, running'⟩⟩

/-- From every reachable state one process, reading a time past every deadline, completes every
    run that is still running and leaves the others as they are. -/
theorem one_worker_recovers (revalidates : Revalidates codec)
    (reached : Reachable (worldStep d config codec) honest (World.initial config) w) (p : Nat)
    (past : PastDeadlines w.engine.db now) {expires : Datetime}
    (fits : now.plusSeconds (d.settings p).leaseTtlSeconds = some expires) (fresh : now < expires)
    (room : w.engine.db.steps.length < 16 ^ 16) (calm : pendingFailures w.tool = 0) :
    ∃ w', Reachable (worldStep d config codec) (alone p now) w w' ∧
      ∀ runId run, getWorkflowRun w.engine.db runId = .ok run →
        ∃ run', getWorkflowRun w'.engine.db runId = .ok run' ∧
          run'.status = if run.status = .running then .completed else run.status := by
  have crashed : step d w.engine (.crash p) = some
      { w.engine.goto p .idle with
        heartbeats := w.engine.heartbeats.filter fun h => h.process ≠ p } := rfl
  have to₁ := engine_moves config codec now (a := .crash p) rfl trivial crashed
  have reached₁ := reachable_trans reached (alone_honest to₁)
  obtain ⟨w', to', finishes, ended⟩ :=
    rounds_alone revalidates ⟨reached₁, goto_same, past, room, calm⟩ fits fresh
  refine ⟨w', reachable_trans to₁ to', fun runId run read => status_read.mp ?_⟩
  have was : statusOf w.engine.db runId = some run.status := status_read.mpr ⟨run, read, rfl⟩
  rcases finishes runId with same | ⟨running, completed⟩
  · have after : statusOf w'.engine.db runId = some run.status := same.trans was
    have still : run.status ≠ .running := fun running => ended runId (running ▸ after)
    rw [if_neg still, after]
  · have running : some run.status = some .running := was.symm.trans running
    rw [if_pos (Option.some.inj running), completed]

end Recovered

section Example

/-- The charge was sent and its worker is gone; past its lease another worker does the rest. -/
theorem lost_charge_recovers : ∃ w w',
    runWhere (worldStep sharedWorker quietTool modelCodec) honest (World.initial quietTool)
      (lateCharge.take 8) = some w ∧
    (w.engine.db.stepsOf "a1").map (·.status) = [.intentRecorded, .pending] ∧
    Reachable (worldStep sharedWorker quietTool modelCodec) (alone 1 40000000) w w' ∧
    ∀ run, getWorkflowRun w.engine.db "a1" = .ok run → ∃ run', getWorkflowRun w'.engine.db "a1" = .ok run' ∧
      run'.status = if run.status = .running then .completed else run.status := by
  have told : (runWhere (worldStep sharedWorker quietTool modelCodec) honest (World.initial quietTool)
      (lateCharge.take 8)).map (fun w => ((w.engine.db.stepsOf "a1").map (·.status),
        decide (PastDeadlines w.engine.db 40000000), decide (w.engine.db.steps.length = 2),
          decide (pendingFailures w.tool = 0))) =
            some ([.intentRecorded, .pending], true, true, true) := by
    decide +kernel
  obtain ⟨w, ran, told⟩ := Option.map_eq_some_iff.mp told
  simp only [Prod.mk.injEq, decide_eq_true_eq] at told
  obtain ⟨statuses, past, length, calm⟩ := told
  have fits : Datetime.plusSeconds 40000000 (sharedWorker.settings 1).leaseTtlSeconds = some 70000000 := by
    decide +kernel
  obtain ⟨w', alone, recovered⟩ := one_worker_recovers (fun _ => model_codec_revalidates)
    (reachable_runWhere (lateCharge.take 8) .start ran) 1 past fits (by decide)
    (by rw [length]; norm_num) calm
  exact ⟨w, w', ran, statuses, alone, recovered "a1"⟩

end Example

end Crashsafe
