import Crashsafe.RunView

/- The methods that write a whole run or its lease, as changes of the views. -/
namespace Crashsafe
open Rows

section Inserting
variable {db db' : Database}

theorem bind_ok {α β ε : Type} {x : Except ε α} {f : α → Except ε β} {b : β} :
    (x >>= f) = .ok b ↔ ∃ a, x = .ok a ∧ f a = .ok b := by
  cases x <;> simp [bind, Except.bind]

theorem insert_run_ok {row : WorkflowRunRow} (h : insertRun db row = .ok db') :
    db.runsOf row.runId = [] ∧ db' = { db with workflowRuns := db.workflowRuns ++ [row] } := by
  unfold insertRun at h
  split at h
  · cases h
  rename_i fresh
  cases h
  exact ⟨ofKey_none fun r member same => fresh ⟨r, member, same⟩, rfl⟩

theorem insert_steps_ok (rows : List StepRow) (h : rows.foldlM insertStep db = .ok db') :
    db' = { db with steps := db.steps ++ rows } := by
  induction rows generalizing db with
  | nil =>
    cases h
    simp
  | cons row rest ih =>
    rw [List.foldlM_cons] at h
    obtain ⟨middle, inserted, later⟩ := bind_ok.mp h
    have shape : middle = { db with steps := db.steps ++ [row] } := by
      unfold insertStep at inserted
      split at inserted
      · cases inserted
      split at inserted
      · cases inserted
      · cases inserted
        rfl
    rw [ih later, shape]
    simp

theorem insert_dependencies_ok (rows : List DependencyRow)
    (h : rows.foldlM insertDependency db = .ok db') :
    db' = { db with stepDependencies := db.stepDependencies ++ rows } := by
  induction rows generalizing db with
  | nil =>
    cases h
    simp
  | cons row rest ih =>
    rw [List.foldlM_cons] at h
    obtain ⟨middle, inserted, later⟩ := bind_ok.mp h
    have shape : middle = { db with stepDependencies := db.stepDependencies ++ [row] } := by
      unfold insertDependency at inserted
      split at inserted
      · cases inserted
      split at inserted
      · cases inserted
      · cases inserted
        rfl
    rw [ih later, shape]
    simp

end Inserting

/-- The projection rows a run is written as. -/
def projectionOf (run : WorkflowRun) (created : WorkflowRunCreatedPayload) (v : RunView) : RunView where
  runs := [rebuiltRunRow run created]
  steps := run.steps.map rebuiltStepRow
  dependencies := dependencyRows run.runId (run.steps.map fun step => (step.id, step.dependsOn))
  events := v.events
  leases := v.leases

theorem dependency_rows_run {runId : String} {steps : List (String × List String)} :
    ∀ row ∈ dependencyRows runId steps, row.runId = runId := by
  intro row member
  simp only [dependencyRows, List.mem_flatMap, List.mem_map] at member
  obtain ⟨_, _, _, _, rfl⟩ := member
  rfl

section Creating
variable {db db' : Database} {definition : WorkflowDefinition} {toolKey : Option String}
  {defaultToolKey runId : String} {now : Datetime}

def createdPayload (definition : WorkflowDefinition) (toolKey : Option String)
    (defaultToolKey runId : String) : WorkflowRunCreatedPayload where
  name := definition.name
  steps := materialize runId (selectedTool defaultToolKey toolKey) definition.steps

/-- The event a creation appends to an empty history. -/
def creationEvent (runId : String) (created : WorkflowRunCreatedPayload) (now : Datetime) :
    WorkflowRunEvent :=
  eventOf runId [] (.workflowRunCreated created) now none none workflowRunCreatedSchemaVersion

/-- Creating a run writes the run its own creation event starts. -/
theorem create_ok (absent : db.view runId = RunView.empty)
    (h : createWorkflowRun db definition toolKey defaultToolKey runId now = .ok db') :
    db'.view runId = projectionOf
        (startedRun runId (creationEvent runId
          (createdPayload definition toolKey defaultToolKey runId) now)
          (createdPayload definition toolKey defaultToolKey runId))
        (createdPayload definition toolKey defaultToolKey runId)
        { RunView.empty with
          events := [creationEvent runId (createdPayload definition toolKey defaultToolKey runId) now] } ∧
      ∀ other, other ≠ runId → db'.view other = db.view other := by
  unfold createWorkflowRun at h
  obtain ⟨withRun, insertedRun, h⟩ := bind_ok.mp h
  obtain ⟨withSteps, insertedSteps, h⟩ := bind_ok.mp h
  obtain ⟨withDependencies, insertedDependencies, h⟩ := bind_ok.mp h
  obtain ⟨_, rfl⟩ := insert_run_ok insertedRun
  obtain rfl := insert_steps_ok _ insertedSteps
  obtain rfl := insert_dependencies_ok _ insertedDependencies
  cases h
  simp only [Database.view, RunView.empty, RunView.mk.injEq] at absent
  obtain ⟨noRuns, noSteps, noDependencies, noEvents, noLeases⟩ := absent
  constructor
  · rw [view_append]
    simp only [Database.view, Database.runsOf, Database.stepsOf, Database.dependenciesOf,
      Database.eventsOf, Database.leasesOf] at *
    simp only [RunView.append, projectionOf, RunView.empty, ofKey_append, noRuns, noSteps,
      noDependencies, noEvents, noLeases, List.nil_append, RunView.mk.injEq]
    refine ⟨ofKey_all (by simp), ?_, ?_, rfl, trivial⟩
    · rw [ofKey_all (by simp [pendingRow])]
      simp [startedRun, rebuiltStepRow, pendingStep, pendingRow, createdPayload, creationEvent,
        eventOf]
    · rw [ofKey_all dependency_rows_run]
      simp [startedRun, pendingStep, createdPayload, Function.comp_def]
  · intro other differs
    rw [view_append_other _ _ differs]
    simp only [Database.view, Database.runsOf, Database.stepsOf, Database.dependenciesOf,
      Database.eventsOf, Database.leasesOf, RunView.mk.injEq, and_true]
    refine ⟨ofKey_append_other ?_, ofKey_append_other ?_, ofKey_append_other ?_⟩
    · simpa using differs.symm
    · simpa [pendingRow] using fun _ _ => differs.symm
    · exact fun row member => by rw [dependency_rows_run row member]; exact differs.symm

end Creating

section Rebuilding
variable {db db' : Database} {rebuilt : WorkflowRun} {created : WorkflowRunCreatedPayload}

/-- A rebuild replaces the projection of its run and drops the run's lease. -/
theorem rebuild_ok (sameRun : ∀ step ∈ rebuilt.steps, step.runId = rebuilt.runId)
    (h : rebuildProjection db rebuilt.runId rebuilt created = .ok db') :
    db'.view rebuilt.runId =
        { projectionOf rebuilt created (db.view rebuilt.runId) with leases := [] } ∧
      ∀ other, other ≠ rebuilt.runId → db'.view other = db.view other := by
  unfold rebuildProjection at h
  obtain ⟨withRun, insertedRun, h⟩ := bind_ok.mp h
  obtain ⟨withSteps, insertedSteps, h⟩ := bind_ok.mp h
  obtain ⟨_, rfl⟩ := insert_run_ok insertedRun
  obtain rfl := insert_steps_ok _ insertedSteps
  obtain rfl := insert_dependencies_ok _ h
  have stepRuns : ∀ row ∈ rebuilt.steps.map rebuiltStepRow, row.runId = rebuilt.runId := by
    intro row member
    obtain ⟨step, inside, rfl⟩ := List.mem_map.mp member
    exact sameRun step inside
  simp only [Database.view, Database.runsOf, Database.stepsOf, Database.dependenciesOf,
    Database.eventsOf, Database.leasesOf, projectionOf, RunView.mk.injEq]
  constructor
  · refine ⟨?_, ?_, ?_, trivial, ofKey_deleteWhere_same _⟩
    · rw [ofKey_append_same (by simp [rebuiltRunRow]), ofKey_deleteWhere_same, List.nil_append]
    · rw [ofKey_append_same stepRuns, ofKey_deleteWhere_same, List.nil_append]
    · rw [ofKey_append_same dependency_rows_run, ofKey_deleteWhere_same, List.nil_append]
  · intro other differs
    refine ⟨?_, ?_, ?_, trivial, ofKey_deleteWhere_other differs _⟩
    · rw [ofKey_append_other (by simpa [rebuiltRunRow] using differs.symm),
        ofKey_deleteWhere_other differs]
    · rw [ofKey_append_other (fun row member => by rw [stepRuns row member]; exact differs.symm),
        ofKey_deleteWhere_other differs]
    · rw [ofKey_append_other (fun row member => by
        rw [dependency_rows_run row member]; exact differs.symm), ofKey_deleteWhere_other differs]

end Rebuilding

section Leases
variable {db db' : Database} {runId ownerId : String} {fenceToken : Int} {now : Datetime}

/-- The pair a holder presents. -/
def pairOf (lease : WorkflowRunLease) : String × Int := (lease.ownerId, lease.fenceToken)

def RunView.pairs (v : RunView) : List (String × Int) := v.leases.map pairOf

/-- What a granted claim has met and done. -/
structure Granted (db : Database) (ownerId : String) (now : Datetime) (db' : Database)
    (claim : ClaimedStep) : Prop where
  selected : ∃ row ∈ (db.view claim.lease.runId).steps, ∃ run ∈ (db.view claim.lease.runId).runs,
    Eligible db now true row run ∧
    claim.step = stepFromRow (dependencies (db.view claim.lease.runId).dependencies) row
  first : ∃ run ∈ (db.view claim.lease.runId).runs, ∀ row ∈ (db.view claim.lease.runId).steps,
    Eligible db now true row run → claim.step.position ≤ row.position
  owner : claim.lease.ownerId = ownerId
  token : claim.lease.fenceToken =
    ((db.view claim.lease.runId).leases.head?.map (·.fenceToken)).getD 0 + 1
  lease : (db.view claim.lease.runId).leases.length ≤ 1 →
    (db'.view claim.lease.runId).leases = [claim.lease]
  rest : db'.view claim.lease.runId =
    { db.view claim.lease.runId with leases := (db'.view claim.lease.runId).leases }
  others : ∀ other, other ≠ claim.lease.runId → db'.view other = db.view other

theorem mem_eligible_rows {includeLease : Bool} {row : StepRow} {run : WorkflowRunRow} :
    (row, run) ∈ eligibleRows db now includeLease ↔
      row ∈ db.steps ∧ run ∈ db.workflowRuns ∧ Eligible db now includeLease row run := by
  simp [eligibleRows]

theorem select_runnable_mem {includeLease : Bool} {row : StepRow}
    (h : row ∈ selectRunnable db now includeLease) :
    row ∈ db.steps ∧ ∃ run ∈ db.workflowRuns, Eligible db now includeLease row run := by
  simp only [selectRunnable, List.mem_map, List.mem_filter] at h
  obtain ⟨⟨s, run⟩, ⟨chosen, _⟩, rfl⟩ := h
  obtain ⟨member, present, eligible⟩ := mem_eligible_rows.mp chosen
  exact ⟨member, run, present, eligible⟩

/-- No eligible step of the selected run comes before the one selected. -/
theorem select_runnable_first {includeLease : Bool} {row : StepRow}
    (h : row ∈ selectRunnable db now includeLease) :
    ∃ run ∈ db.workflowRuns, run.runId = row.runId ∧ ∀ other ∈ db.steps,
      Eligible db now includeLease other run → row.position ≤ other.position := by
  simp only [selectRunnable, List.mem_map, List.mem_filter, decide_eq_true_eq] at h
  obtain ⟨⟨s, run⟩, ⟨chosen, least⟩, rfl⟩ := h
  obtain ⟨_, present, eligible⟩ := mem_eligible_rows.mp chosen
  refine ⟨run, present, eligible.1, fun other member ready => ?_⟩
  by_contra later
  exact least (other, run) (mem_eligible_rows.mpr ⟨member, present, ready⟩) (.inr ⟨rfl, not_le.mp later⟩)

theorem next_fence_token_view :
    nextFenceToken db runId = ((db.view runId).leases.head?.map (·.fenceToken)).getD 0 + 1 := by
  simp only [nextFenceToken, Database.view, Database.leasesOf, head_ofKey]
  split
  · rename_i none
    simp [none]
  · rename_i lease found
    simp [found]

theorem replace_lease_run (old new : WorkflowRunLease) : (replaceLease old new).runId = old.runId := rfl

theorem upsert_lease_same (lease : WorkflowRunLease)
    (single : (db.leasesOf lease.runId).length ≤ 1) :
    (upsertLease db lease).leasesOf lease.runId = [lease] := by
  refine (ofKey_upsert_same (fun old => replace_lease_run old lease) db.workflowRunLeases).trans ?_
  have runs : ∀ l ∈ db.leasesOf lease.runId, l.runId = lease.runId :=
    fun l inside => (mem_ofKey.mp inside).2
  have here : ofKey WorkflowRunLease.runId lease.runId db.workflowRunLeases =
      db.leasesOf lease.runId := rfl
  rw [here]
  generalize db.leasesOf lease.runId = rows at single runs
  match rows with
  | [] => rfl
  | [old] => simp [replaceLease, runs old (by simp)]
  | _ :: _ :: _ => simp at single

theorem claim_ok {leaseTtl : PyFloat} {outcomes : List (Database × ClaimedStep)}
    {claim : ClaimedStep} (h : claimRunnableStep db ownerId leaseTtl now = .ok outcomes)
    (chosen : (db', claim) ∈ outcomes) : Granted db ownerId now db' claim := by
  unfold claimRunnableStep at h
  split at h
  · cases h
  rename_i expires _
  cases h
  obtain ⟨row, selected, granted⟩ := List.mem_map.mp chosen
  obtain ⟨member, run, present, eligible⟩ := select_runnable_mem selected
  obtain ⟨run', present', named, first⟩ := select_runnable_first selected
  cases granted
  refine ⟨⟨row, mem_ofKey.mpr ⟨member, rfl⟩, run, mem_ofKey.mpr ⟨present, eligible.1⟩, eligible, rfl⟩,
    ⟨run', mem_ofKey.mpr ⟨present', named⟩, fun other inside => first other (mem_ofKey.mp inside).1⟩,
    rfl, next_fence_token_view, upsert_lease_same _, rfl, ?_⟩
  intro other differs
  simp only [Database.view, Database.runsOf, Database.stepsOf, Database.dependenciesOf,
    Database.eventsOf, Database.leasesOf, upsertLease, RunView.mk.injEq, true_and]
  exact upsert_ofKey_other (fun old => replace_lease_run old _) differs _

/-- A renewal or a release changes at most the expiry of rows holding the pair presented. -/
structure Touched (db : Database) (runId ownerId : String) (fenceToken : Int) (db' : Database) :
    Prop where
  held : db' = db ∨ (ownerId, fenceToken) ∈ (db.view runId).pairs
  pairs : (db'.view runId).pairs = (db.view runId).pairs
  rest : db'.view runId = { db.view runId with leases := (db'.view runId).leases }
  others : ∀ other, other ≠ runId → db'.view other = db.view other

theorem touch_leases {p : WorkflowRunLease → Bool} {f : WorkflowRunLease → WorkflowRunLease}
    (owned : ∀ lease, p lease = true → ownsLease runId ownerId fenceToken lease = true)
    (keeps : ∀ lease, (f lease).runId = lease.runId ∧ pairOf (f lease) = pairOf lease) :
    Touched db runId ownerId fenceToken
      { db with workflowRunLeases := updateWhere p f db.workflowRunLeases } := by
  have runs : ∀ lease, p lease = true → lease.runId = runId := by
    intro lease selected
    have := owned lease selected
    simp only [ownsLease, decide_eq_true_eq] at this
    exact this.1
  have sameRun : ∀ lease, p lease = true → (f lease).runId = lease.runId := fun lease _ => (keeps lease).1
  refine ⟨?_, ?_, rfl, ?_⟩
  · by_cases some : ∃ lease ∈ db.workflowRunLeases, p lease = true
    · obtain ⟨lease, member, selected⟩ := some
      have mine := owned lease selected
      simp only [ownsLease, decide_eq_true_eq] at mine
      refine .inr (List.mem_map.mpr ⟨lease, mem_ofKey.mpr ⟨member, mine.1⟩, ?_⟩)
      simp [pairOf, mine]
    · push Not at some
      rw [updateWhere_none fun lease member => by simpa using some lease member]
      exact .inl rfl
  · simp only [RunView.pairs, Database.view, Database.leasesOf]
    rw [ofKey_updateWhere sameRun]
    exact map_updateWhere (fun lease _ => (keeps lease).2) _
  · intro other differs
    simp only [Database.view, Database.runsOf, Database.stepsOf, Database.dependenciesOf,
      Database.eventsOf, Database.leasesOf, RunView.mk.injEq, true_and]
    exact ofKey_updateWhere_other sameRun runs differs _

theorem renew_ok {leaseTtl : PyFloat} {renewed : Bool}
    (h : renewLease db runId ownerId fenceToken leaseTtl now = .ok (db', renewed)) :
    Touched db runId ownerId fenceToken db' := by
  unfold renewLease at h
  split at h
  · cases h
  · cases h
    exact touch_leases (fun lease live => by simp at live; exact live.1) fun _ => ⟨rfl, rfl⟩

theorem release_touches :
    Touched db runId ownerId fenceToken (releaseLease db runId ownerId fenceToken now).1 :=
  touch_leases (fun _ owned => owned) fun _ => ⟨rfl, rfl⟩

/-- Passing the lease check with a pair means that the run's lease row holds it. -/
theorem require_lease_ok {row : StepRow} {leaseNow : Datetime}
    (h : requireLease db row (some ownerId) (some fenceToken) leaseNow = .ok ()) :
    (ownerId, fenceToken) ∈ (db.view row.runId).pairs := by
  simp only [requireLease] at h
  split at h
  · rename_i found
    obtain ⟨lease, member, owned, _⟩ := found
    simp only [ownsLease, decide_eq_true_eq] at owned
    exact List.mem_map.mpr ⟨lease, mem_ofKey.mpr ⟨member, owned.1⟩, by simp [pairOf, owned]⟩
  · cases h

end Leases

end Crashsafe
