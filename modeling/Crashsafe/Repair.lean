import Crashsafe.ReadBack

/- rebuild_projection as one call nobody interferes with: whatever the rows of its run hold,
   they are replaced by what the history reduces to. -/
namespace Crashsafe
open Rows Replay

inductive RebuildError where
  | storage (e : StorageError)
  | history (e : HistoryIntegrityError)
  | validation
  deriving DecidableEq, Repr

/-- The two reads, the write transaction and the final read of `rebuild_projection`. -/
def rebuildRun (db : Database) (runId : String) : Except RebuildError (Database × WorkflowRun) :=
  match listEvents db runId with
  | .error e => .error (.storage e)
  | .ok history =>
    match reduceWorkflowRunHistory history with
    | .error e => .error (.history e)
    | .ok rebuilt =>
      match creationPayload history with
      | none => .error .validation
      | some created =>
        match rebuildProjection db runId rebuilt created with
        | .error e => .error (.storage e)
        | .ok db =>
          match getWorkflowRun db runId with
          | .error e => .error (.storage e)
          | .ok run => .ok (db, run)

section Inserting
variable {db : Database}

/- Which rows of `steps` cannot stand together. -/
def StepsConflict (s row : StepRow) : Prop :=
  (s.runId = row.runId ∧ s.id = row.id) ∨ s.operationKey = row.operationKey ∨
    (s.runId = row.runId ∧ s.position = row.position)

theorem insert_run_accepts {row : WorkflowRunRow} (fresh : ∀ r ∈ db.workflowRuns, r.runId ≠ row.runId) :
    insertRun db row = .ok { db with workflowRuns := db.workflowRuns ++ [row] } := by
  unfold insertRun
  rw [if_neg]
  rintro ⟨r, member, same⟩
  exact fresh r member same

theorem insert_steps_accepts (rows : List StepRow)
    (owned : ∀ row ∈ rows, ∃ r ∈ db.workflowRuns, r.runId = row.runId)
    (apart : ∀ s ∈ db.steps, ∀ row ∈ rows, ¬ StepsConflict s row)
    (distinct : rows.Pairwise fun a b => ¬ StepsConflict a b) :
    rows.foldlM insertStep db = .ok { db with steps := db.steps ++ rows } := by
  induction rows generalizing db with
  | nil => simp [pure, Except.pure]
  | cons row rest ih =>
    obtain ⟨first, later⟩ := List.pairwise_cons.mp distinct
    have inserted : insertStep db row = .ok { db with steps := db.steps ++ [row] } := by
      unfold insertStep
      rw [if_neg, if_neg]
      · exact not_not.mpr (owned row List.mem_cons_self)
      · rintro ⟨s, member, conflict⟩
        exact apart s member row List.mem_cons_self conflict
    rw [List.foldlM_cons, inserted]
    refine (ih ?_ ?_ later).trans (by simp)
    · exact fun other member => owned other (List.mem_cons_of_mem row member)
    · intro s member other inside
      rcases List.mem_append.mp member with old | new
      · exact apart s old other (List.mem_cons_of_mem row inside)
      · rw [List.mem_singleton.mp new]
        exact first other inside

theorem insert_dependencies_accepts (rows : List DependencyRow)
    (linked : ∀ row ∈ rows, (∃ s ∈ db.steps, s.runId = row.runId ∧ s.id = row.stepId) ∧
      ∃ s ∈ db.steps, s.runId = row.runId ∧ s.id = row.dependencyStepId)
    (fresh : ∀ row ∈ rows, row ∉ db.stepDependencies) (distinct : rows.Nodup) :
    rows.foldlM insertDependency db =
      .ok { db with stepDependencies := db.stepDependencies ++ rows } := by
  induction rows generalizing db with
  | nil => simp [pure, Except.pure]
  | cons row rest ih =>
    obtain ⟨first, later⟩ := List.nodup_cons.mp distinct
    have inserted : insertDependency db row =
        .ok { db with stepDependencies := db.stepDependencies ++ [row] } := by
      unfold insertDependency
      rw [if_neg (fresh row List.mem_cons_self),
        if_neg (not_not.mpr (linked row List.mem_cons_self))]
    rw [List.foldlM_cons, inserted]
    refine (ih ?_ ?_ later).trans (by simp)
    · exact fun other member => linked other (List.mem_cons_of_mem row member)
    · intro other member
      rw [List.mem_append, List.mem_singleton]
      rintro (old | rfl)
      · exact fresh other (List.mem_cons_of_mem row member) old
      · exact first member

end Inserting

section Rebuilt
variable {created payload : WorkflowRunCreatedPayload} {events : List WorkflowRunEvent}
  {rebuilt : WorkflowRun}

theorem sound_definitions (sound : FoldSound payload events rebuilt) {step : StepRecord}
    (member : step ∈ rebuilt.steps) :
    step.operationKey = operationKey rebuilt.runId step.id ∧ step.dependsOn.Nodup := by
  obtain ⟨first, rest, shape, creation, _⟩ := sound.bracketed.creation
  obtain ⟨_, _, _, checked, _⟩ := validate_definitions_ok creation.valid
  have defined : snapshot step ∈ payload.steps := by
    rw [← sound.snapshots]
    exact List.mem_map_of_mem member
  obtain ⟨key, unique, _, _⟩ := check_definition_ok.mp (checked _ defined)
  have sameRun : first.runId = rebuilt.runId := sound.runIds first (by simp [shape])
  exact ⟨by rw [← sameRun]; exact key, unique⟩

theorem operation_key_chars (runId stepId : String) :
    (operationKey runId stepId).toList = runId.toList ++ ':' :: stepId.toList := by
  simp [operationKey, toString]

theorem operation_key_id (runId : String) {a b : String}
    (same : operationKey runId a = operationKey runId b) :
    a = b := by
  have texts := congrArg String.toList same
  rw [operation_key_chars, operation_key_chars, List.append_cancel_left_eq] at texts
  exact String.toList_injective (List.cons.inj texts).2

theorem rebuilt_rows_distinct (sound : FoldSound payload events rebuilt) :
    (rebuilt.steps.map rebuiltStepRow).Pairwise fun a b => ¬ StepsConflict a b := by
  have ids := List.pairwise_map.mp sound.distinct
  have positions := (sound_positions sound).imp ne_of_lt
  refine List.pairwise_map.mpr ((ids.and positions).imp_of_mem ?_)
  rintro a b ha hb ⟨sameId, samePosition⟩ (⟨_, same⟩ | same | ⟨_, same⟩)
  · exact sameId same
  · refine sameId (operation_key_id rebuilt.runId ?_)
    rw [← (sound_definitions sound ha).1, ← (sound_definitions sound hb).1]
    exact same
  · exact samePosition same

theorem mem_dependency_rows {runId : String} {steps : List StepRecord} {row : DependencyRow} :
    row ∈ dependencyRows runId (steps.map fun step => (step.id, step.dependsOn)) ↔
      ∃ step ∈ steps, ∃ d ∈ step.dependsOn, row = ⟨runId, step.id, d⟩ := by
  simp only [dependencyRows, List.mem_flatMap, List.mem_map]
  constructor
  · rintro ⟨_, ⟨step, member, rfl⟩, d, listed, rfl⟩
    exact ⟨step, member, d, listed, rfl⟩
  · rintro ⟨step, member, d, listed, rfl⟩
    exact ⟨_, ⟨step, member, rfl⟩, d, listed, rfl⟩

theorem dependency_rows_distinct (runId : String) {steps : List StepRecord}
    (distinct : (steps.map (·.id)).Nodup) (unique : ∀ step ∈ steps, step.dependsOn.Nodup) :
    (dependencyRows runId (steps.map fun step => (step.id, step.dependsOn))).Nodup := by
  induction steps with
  | nil => exact List.nodup_nil
  | cons first rest ih =>
    obtain ⟨fresh, distinctRest⟩ := List.nodup_cons.mp distinct
    have later := ih distinctRest fun step member => unique step (List.mem_cons_of_mem first member)
    have here : (first.dependsOn.map fun d => (⟨runId, first.id, d⟩ : DependencyRow)).Nodup :=
      (unique first List.mem_cons_self).map fun a b same => congrArg DependencyRow.dependencyStepId same
    refine List.nodup_append.mpr ⟨here, later, ?_⟩
    rintro a mine b others rfl
    obtain ⟨d, _, rfl⟩ := List.mem_map.mp mine
    obtain ⟨step, member, _, _, same⟩ := mem_dependency_rows.mp others
    exact fresh (List.mem_map.mpr ⟨step, member, (congrArg DependencyRow.stepId same).symm⟩)

end Rebuilt

section Repairing
variable {db : Database} {payload created : WorkflowRunCreatedPayload}
  {events : List WorkflowRunEvent} {rebuilt : WorkflowRun}

/-- The database a rebuild leaves: the run's rows go, the rebuilt ones come last. -/
def replaced (db : Database) (rebuilt : WorkflowRun) (created : WorkflowRunCreatedPayload) :
    Database :=
  { db with
    workflowRuns := deleteWhere (fun row => row.runId = rebuilt.runId) db.workflowRuns ++
      [rebuiltRunRow rebuilt created]
    steps := deleteWhere (fun row => row.runId = rebuilt.runId) db.steps ++
      rebuilt.steps.map rebuiltStepRow
    stepDependencies := deleteWhere (fun row => row.runId = rebuilt.runId) db.stepDependencies ++
      dependencyRows rebuilt.runId (rebuilt.steps.map fun step => (step.id, step.dependsOn))
    workflowRunLeases :=
      deleteWhere (fun lease => lease.runId = rebuilt.runId) db.workflowRunLeases }

/-- The operation keys of other runs' steps are not among those of this run. -/
def KeysApart (db : Database) (runId : String) : Prop :=
  ∀ s ∈ db.steps, s.runId ≠ runId → ∀ stepId, s.operationKey ≠ operationKey runId stepId

theorem rebuilt_step_runs (sound : FoldSound payload events rebuilt) :
    ∀ row ∈ rebuilt.steps.map rebuiltStepRow, row.runId = rebuilt.runId := by
  intro row member
  obtain ⟨step, inside, rfl⟩ := List.mem_map.mp member
  exact sound.stepRunIds step inside

theorem rebuild_projection_replaces (sound : FoldSound payload events rebuilt)
    (apart : KeysApart db rebuilt.runId) :
    rebuildProjection db rebuilt.runId rebuilt created = .ok (replaced db rebuilt created) := by
  have stepRuns := rebuilt_step_runs sound
  have stored : ∀ step ∈ rebuilt.steps, rebuiltStepRow step ∈
      deleteWhere (fun row => row.runId = rebuilt.runId) db.steps ++
        rebuilt.steps.map rebuiltStepRow := fun step member =>
    List.mem_append_right _ (List.mem_map_of_mem member)
  unfold rebuildProjection
  refine bind_ok.mpr ⟨_, insert_run_accepts (by simp [deleteWhere, rebuiltRunRow]), ?_⟩
  refine bind_ok.mpr ⟨_, insert_steps_accepts _ ?owned ?apart (rebuilt_rows_distinct sound), ?_⟩
  case owned =>
    intro row member
    exact ⟨rebuiltRunRow rebuilt created, by simp, (stepRuns row member).symm⟩
  case apart =>
    intro s member row inside conflict
    obtain ⟨old, other⟩ := List.mem_filter.mp member
    have differs : s.runId ≠ rebuilt.runId := by simpa using other
    obtain ⟨step, present, rfl⟩ := List.mem_map.mp inside
    rcases conflict with ⟨same, _⟩ | same | ⟨same, _⟩
    · exact differs (same.trans (stepRuns _ inside))
    · exact apart s old differs step.id (same.trans (sound_definitions sound present).1)
    · exact differs (same.trans (stepRuns _ inside))
  refine (insert_dependencies_accepts _ ?_ ?_ ?_).trans rfl
  · intro row member
    obtain ⟨step, inside, d, listed, rfl⟩ := mem_dependency_rows.mp member
    obtain ⟨dep, present, named⟩ := dependency_exists sound inside listed
    exact ⟨⟨_, stored step inside, sound.stepRunIds step inside, rfl⟩,
      _, stored dep present, sound.stepRunIds dep present, named⟩
  · intro row member kept
    have other := (List.mem_filter.mp kept).2
    have mine := dependency_rows_run row member
    simp [mine] at other
  · exact dependency_rows_distinct _ sound.distinct fun step member =>
      (sound_definitions sound member).2

theorem replaced_again (sound : FoldSound payload events rebuilt) :
    replaced (replaced db rebuilt created) rebuilt created = replaced db rebuilt created := by
  have runs := deleteWhere_again (p := fun row : WorkflowRunRow => row.runId = rebuilt.runId)
    [rebuiltRunRow rebuilt created] (by simp [rebuiltRunRow]) db.workflowRuns
  have steps := deleteWhere_again (p := fun row : StepRow => row.runId = rebuilt.runId)
    (rebuilt.steps.map rebuiltStepRow)
    (fun row member => by simpa using rebuilt_step_runs sound row member) db.steps
  have dependencies := deleteWhere_again (p := fun row : DependencyRow => row.runId = rebuilt.runId)
    (dependencyRows rebuilt.runId (rebuilt.steps.map fun step => (step.id, step.dependsOn)))
    (fun row member => by simpa using dependency_rows_run row member) db.stepDependencies
  have leases := deleteWhere_again (p := fun lease : WorkflowRunLease => lease.runId = rebuilt.runId)
    [] (by simp) db.workflowRunLeases
  rw [List.append_nil] at leases
  simp only [replaced, runs, steps, dependencies, leases]

theorem replaced_apart (apart : KeysApart db rebuilt.runId)
    (sound : FoldSound payload events rebuilt) :
    KeysApart (replaced db rebuilt created) rebuilt.runId := by
  intro s member differs
  rcases List.mem_append.mp member with old | new
  · exact apart s (List.mem_filter.mp old).1 differs
  · exact absurd (rebuilt_step_runs sound s new) differs

theorem replaced_reads (sound : FoldSound payload events rebuilt)
    (apart : KeysApart db rebuilt.runId) :
    getWorkflowRun (replaced db rebuilt created) rebuilt.runId = .ok rebuilt ∧
      (replaced db rebuilt created).runsOf rebuilt.runId = [rebuiltRunRow rebuilt created] ∧
      (replaced db rebuilt created).stepsOf rebuilt.runId = rebuilt.steps.map rebuiltStepRow ∧
      (replaced db rebuilt created).dependenciesOf rebuilt.runId =
        dependencyRows rebuilt.runId (rebuilt.steps.map fun step => (step.id, step.dependsOn)) ∧
      ∀ other, other ≠ rebuilt.runId → (replaced db rebuilt created).view other = db.view other := by
  have rebuild : rebuildProjection db rebuilt.runId rebuilt created =
      .ok (replaced db rebuilt created) := rebuild_projection_replaces sound apart
  obtain ⟨written, others⟩ := rebuild_ok sound.stepRunIds rebuild
  have runs : (replaced db rebuilt created).runsOf rebuilt.runId = [rebuiltRunRow rebuilt created] :=
    congrArg RunView.runs written
  have steps : (replaced db rebuilt created).stepsOf rebuilt.runId =
      rebuilt.steps.map rebuiltStepRow := congrArg RunView.steps written
  have edges : (replaced db rebuilt created).dependenciesOf rebuilt.runId =
      dependencyRows rebuilt.runId (rebuilt.steps.map fun step => (step.id, step.dependsOn)) :=
    congrArg RunView.dependencies written
  refine ⟨?_, runs, steps, edges, others⟩
  have reads : rebuilt = workflowRunFromRows (rebuiltRunRow rebuilt created)
      (orderBy (·.position) (projectionOf rebuilt created (db.view rebuilt.runId)).steps)
      (dependencies (projectionOf rebuilt created (db.view rebuilt.runId)).dependencies) :=
    read_back sound
  unfold getWorkflowRun
  rw [runs, steps, edges]
  exact congrArg Except.ok reads.symm

/-- What a rebuild has read before it writes. -/
theorem listed_sound {runId : String} {history : List WorkflowRunEvent}
    (listed : listEvents db runId = .ok history)
    (accepted : reduceWorkflowRunHistory history = .ok rebuilt) :
    rebuilt.runId = runId ∧ ∃ payload, FoldSound payload history rebuilt ∧
      creationPayload history = some payload := by
  have runIds : ∀ e ∈ history, e.runId = runId := by
    intro e member
    unfold listEvents at listed
    split at listed
    · cases listed
    · rename_i first rest sorted
      cases listed
      rw [← sorted] at member
      exact (mem_ofKey.mp (mem_orderBy.mp member)).2
  obtain ⟨_, _, named, payload, sound⟩ := read_history runIds accepted
  obtain ⟨first, rest, shape, creation, _⟩ := sound.bracketed.creation
  exact ⟨named, payload, sound, by simp [shape, creationPayload, creation.payload]⟩

theorem rebuild_run_replaces {runId : String} {history : List WorkflowRunEvent}
    (listed : listEvents db runId = .ok history)
    (accepted : reduceWorkflowRunHistory history = .ok rebuilt)
    (read : creationPayload history = some created) (apart : KeysApart db runId) :
    rebuildRun db runId = .ok (replaced db rebuilt created, rebuilt) := by
  obtain ⟨rfl, payload, sound, _⟩ := listed_sound listed accepted
  simp only [rebuildRun, listed, accepted, read, rebuild_projection_replaces sound apart,
    (replaced_reads sound apart).1]

end Repairing

/-- The rows of a run are what its history calls for, under the keys the schema declares. -/
structure Unaltered (db : Database) (runId : String) (history : List WorkflowRunEvent)
    (rebuilt : WorkflowRun) : Prop where
  projected : getWorkflowRun db runId = .ok rebuilt
  definition : ∀ row ∈ db.runsOf runId, creationPayload history = some row.definition
  runKey : (db.runsOf runId).length ≤ 1
  dependencyKey : (db.dependenciesOf runId).Nodup
  stepReference : ∀ d ∈ db.dependenciesOf runId, ∃ s ∈ db.stepsOf runId, s.id = d.stepId

section Unaltered
variable {db : Database} {history : List WorkflowRunEvent} {rebuilt : WorkflowRun}
  {payload created : WorkflowRunCreatedPayload}

theorem unaltered_runs (h : Unaltered db rebuilt.runId history rebuilt)
    (read : creationPayload history = some created) :
    db.runsOf rebuilt.runId = [rebuiltRunRow rebuilt created] := by
  have projected := h.projected
  unfold getWorkflowRun at projected
  split at projected
  · cases projected
  rename_i row rest rows
  have single := h.runKey
  have defined := h.definition row (by simp [rows])
  rw [read, Option.some.injEq] at defined
  rw [rows] at single ⊢
  have none : rest = [] := by simpa using single
  have reads := Except.ok.inj projected
  rw [none, defined, ← reads]
  rfl

theorem unaltered_steps (h : Unaltered db rebuilt.runId history rebuilt) :
    orderBy (·.position) (db.stepsOf rebuilt.runId) = rebuilt.steps.map rebuiltStepRow ∧
      ∀ step ∈ rebuilt.steps,
        dependencies (db.dependenciesOf rebuilt.runId) step.id = step.dependsOn := by
  have projected := h.projected
  unfold getWorkflowRun at projected
  split at projected
  · cases projected
  have steps : rebuilt.steps = (orderBy (·.position) (db.stepsOf rebuilt.runId)).map
      (stepFromRow (dependencies (db.dependenciesOf rebuilt.runId))) :=
    (congrArg WorkflowRun.steps (Except.ok.inj projected)).symm
  constructor
  · rw [steps, List.map_map]
    exact (List.map_id _).symm
  · intro step member
    rw [steps] at member
    obtain ⟨row, _, rfl⟩ := List.mem_map.mp member
    rfl

theorem unaltered_dependencies (sound : FoldSound payload history rebuilt)
    (h : Unaltered db rebuilt.runId history rebuilt) :
    (dependencyRows rebuilt.runId (rebuilt.steps.map fun step => (step.id, step.dependsOn))).Perm
      (db.dependenciesOf rebuilt.runId) := by
  obtain ⟨steps, depends⟩ := unaltered_steps h
  have distinct := dependency_rows_distinct rebuilt.runId sound.distinct fun step member =>
    (sound_definitions sound member).2
  apply (List.perm_ext_iff_of_nodup distinct h.dependencyKey).mpr
  intro row
  rw [mem_dependency_rows]
  constructor
  · rintro ⟨step, member, d, listed, rfl⟩
    rw [← depends step member] at listed
    obtain ⟨row, inside, source, target⟩ := mem_dependencies.mp listed
    have mine := (mem_ofKey.mp inside).2
    cases row
    cases mine
    cases source
    cases target
    exact inside
  · intro inside
    obtain ⟨s, stored, named⟩ := h.stepReference row inside
    have read : s ∈ rebuilt.steps.map rebuiltStepRow := steps ▸ mem_orderBy.mpr stored
    obtain ⟨step, member, rfl⟩ := List.mem_map.mp read
    have mine : row.runId = rebuilt.runId := (mem_ofKey.mp inside).2
    refine ⟨step, member, row.dependencyStepId, ?_, ?_⟩
    · rw [← depends step member]
      exact mem_dependencies.mpr ⟨row, inside, named.symm, rfl⟩
    · rw [← mine, show step.id = row.stepId from named]

end Unaltered

/-- What a rebuild without concurrent writers leaves. -/
structure Repaired (db : Database) (runId : String) (history : List WorkflowRunEvent)
    (rebuilt : WorkflowRun) (db' : Database) : Prop where
  projected : getWorkflowRun db' runId = .ok rebuilt
  definition : (db'.runsOf runId).map (fun row => some row.definition) = [creationPayload history]
  events : db'.workflowRunEvents = db.workflowRunEvents
  throttles : db'.toolThrottles = db.toolThrottles
  others : ∀ other, other ≠ runId → db'.runsOf other = db.runsOf other ∧
    db'.stepsOf other = db.stepsOf other ∧ db'.dependenciesOf other = db.dependenciesOf other ∧
    db'.leasesOf other = db.leasesOf other
  again : rebuildRun db' runId = .ok (db', rebuilt)
  unaltered : Unaltered db runId history rebuilt → db'.runsOf runId = db.runsOf runId ∧
    (db'.stepsOf runId).Perm (db.stepsOf runId) ∧
    (db'.dependenciesOf runId).Perm (db.dependenciesOf runId)

theorem accepted_history_repairs {db : Database} {runId : String} {history : List WorkflowRunEvent}
    {rebuilt : WorkflowRun} (listed : listEvents db runId = .ok history)
    (accepted : reduceWorkflowRunHistory history = .ok rebuilt) (apart : KeysApart db runId) :
    ∃ db', rebuildRun db runId = .ok (db', rebuilt) ∧ Repaired db runId history rebuilt db' := by
  obtain ⟨rfl, payload, sound, read⟩ := listed_sound listed accepted
  have done := rebuild_run_replaces listed accepted read apart
  obtain ⟨projected, runs, steps, dependencies, others⟩ := replaced_reads sound apart
  refine ⟨_, done, projected, by simp [runs, read, rebuiltRunRow], rfl, rfl, ?_, ?_, ?_⟩
  · intro other differs
    have same := others other differs
    exact ⟨congrArg RunView.runs same, congrArg RunView.steps same,
      congrArg RunView.dependencies same, congrArg RunView.leases same⟩
  · have second : rebuildRun (replaced db rebuilt payload) rebuilt.runId =
        .ok (replaced (replaced db rebuilt payload) rebuilt payload, rebuilt) :=
      rebuild_run_replaces listed accepted read (replaced_apart apart sound)
    rw [second, replaced_again sound]
  · intro same
    refine ⟨runs.trans (unaltered_runs same read).symm, ?_, ?_⟩
    · rw [steps, ← (unaltered_steps same).1]
      exact List.perm_insertionSort _ _
    · rw [dependencies]
      exact unaltered_dependencies sound same

/-- Whatever the run's own rows hold, a rebuild succeeds when the history is accepted, makes
    them what it calls for and touches nothing else. -/
theorem rebuild_repairs {db : Database} {runId : String} {history : List WorkflowRunEvent}
    {rebuilt : WorkflowRun} (listed : listEvents db runId = .ok history)
    (accepted : reduceWorkflowRunHistory history = .ok rebuilt) (apart : KeysApart db runId) :
    ∃ db', rebuildRun db runId = .ok (db', rebuilt) ∧ Repaired db runId history rebuilt db' :=
  accepted_history_repairs listed accepted apart

section Example

/- The run row claims a failure, the steps are gone but for a stray one, and another run has
   its own rows. -/
def tamperedDatabase : Database where
  workflowRuns := [⟨"r", "renamed", .failed, ⟨"", []⟩, 9, 9, none⟩,
    ⟨"o", "other", .running, ⟨"", []⟩, 9, 9, none⟩]
  steps := [⟨"r", "ghost", 7, .notify, .completed, .null, "ghost", "", none, 5, none, none, 9, 9, none⟩,
    ⟨"o", "charge", 0, .charge, .pending, .null, "o:charge", "", none, 0, none, none, 9, 9, none⟩]
  stepDependencies := [⟨"r", "ghost", "ghost"⟩]
  workflowRunEvents := chargedHistory
  workflowRunLeases := [⟨"r", "worker-1", 1, 30, 1⟩]
  toolThrottles := []

theorem tampered_keys_apart : KeysApart tamperedDatabase "r" := by
  intro s member differs stepId same
  have chars := congrArg String.toList same
  rw [operation_key_chars] at chars
  simp only [tamperedDatabase, List.mem_cons, List.not_mem_nil, or_false] at member
  rcases member with rfl | rfl
  · exact differs rfl
  · simp at chars

theorem tampered_repaired : ∃ rebuilt, reduceWorkflowRunHistory chargedHistory = .ok rebuilt ∧
    ∃ db', rebuildRun tamperedDatabase "r" = .ok (db', rebuilt) ∧
      Repaired tamperedDatabase "r" chargedHistory rebuilt db' := by
  have listed : listEvents tamperedDatabase "r" = .ok chargedHistory := rfl
  exact ⟨_, rfl, rebuild_repairs listed rfl tampered_keys_apart⟩

end Example

end Crashsafe
