import Crashsafe.RunWrites
import Crashsafe.GraphValidation

/- The projection of a run against its history: reading back what a run was written as, and
   the simulation between the storage's transitions and the reducer's. -/
namespace Crashsafe
open Rows Replay

/- `projection_matches_history`, with the comparison as equality of the two runs. -/
def ProjectionMatches (db : Database) (runId : String) : Prop :=
  ∃ run events, getWorkflowRun db runId = .ok run ∧ listEvents db runId = .ok events ∧
    reduceWorkflowRunHistory events = .ok run

def readSteps (v : RunView) : List StepRecord :=
  (orderBy (·.position) v.steps).map (stepFromRow (dependencies v.dependencies))

/-- The rows of a run read as `run`, and its history folds to the same `run`. -/
structure Consistent (runId : String) (v : RunView) (run : WorkflowRun) : Prop where
  row : ∃ row, v.runs = [row] ∧ run = workflowRunFromRows row (orderBy (·.position) v.steps)
    (dependencies v.dependencies)
  folded : foldHistory runId v.events = .ok (some run, v.events.length + 1)
  settled : settle run = .ok run

/-- A step's request is the dump of a request the API has accepted. -/
def Submitted (operation : StepName) (request : Json) : Prop :=
  ∃ q : StepRequest, q.Accepted ∧ operation = q.operation ∧ request = q.modelDump

/-- What holds of one run's rows in any state at all, whatever the run's history says. -/
structure Tidy (runId : String) (v : RunView) : Prop where
  runs : v.runs.length ≤ 1
  leases : v.leases.length ≤ 1
  runIds : ∀ e ∈ v.events, e.runId = runId
  sequences : v.events.map (·.sequence) = numbering v.events.length
  absent : v.runs = [] → v = RunView.empty
  present : v.runs ≠ [] → v.events ≠ []
  distinct : (v.steps.map (·.id)).Nodup
  submitted : ∀ row ∈ v.steps, Submitted row.operation row.request
  snapshots : ∀ e ∈ v.events, ∀ created, e.payload = some (.workflowRunCreated created) →
    ∀ d ∈ created.steps, Submitted d.operation d.request

section Sequences
variable {events : List WorkflowRunEvent}
  (sequences : events.map (·.sequence) = numbering events.length)
include sequences

theorem next_of_sequences : nextOf events = events.length + 1 := by
  rw [nextOf, sequences, numbering_max]

theorem sequences_sorted : orderBy (·.sequence) events = events := by
  have sorted := numbering_sorted events.length
  rw [← sequences, List.pairwise_map] at sorted
  exact orderBy_sorted (sorted.imp le_of_lt)

theorem sequences_snoc (runId : String) (payload : EventPayload) (now : Datetime)
    (stepId : Option String) (attempt : Option Int) (version : Int) :
    (events ++ [eventOf runId events payload now stepId attempt version]).map (·.sequence) =
      numbering (events ++ [eventOf runId events payload now stepId attempt version]).length := by
  simp [sequences, eventOf, next_of_sequences sequences, numbering_succ]

end Sequences

section Matching
variable {db : Database} {runId : String}

theorem list_events_ok {events : List WorkflowRunEvent} (tidy : Tidy runId (db.view runId))
    (listed : listEvents db runId = .ok events) : events = (db.view runId).events := by
  unfold listEvents at listed
  rw [show orderBy (·.sequence) (db.eventsOf runId) = db.eventsOf runId from
    sequences_sorted tidy.sequences] at listed
  split at listed
  · cases listed
  · rename_i first rest shape
    cases listed
    exact shape.symm

/-- The reducer accepts the history of a consistent run. -/
theorem consistent_accepted (tidy : Tidy runId (db.view runId)) {run : WorkflowRun}
    (h : Consistent runId (db.view runId) run) :
    reduceWorkflowRunHistory (db.view runId).events = .ok run := by
  obtain ⟨row, rows, _⟩ := h.row
  have nonempty : (db.view runId).events ≠ [] := tidy.present (by rw [rows]; simp)
  obtain ⟨first, rest, shape⟩ := List.exists_cons_of_ne_nil nonempty
  have firstRun : first.runId = runId := tidy.runIds first (by simp [shape])
  refine reduce_history_ok.mpr ⟨first, rest, (db.view runId).events.length + 1, shape, ?_, h.settled⟩
  rw [firstRun]
  exact h.folded

/-- The database's own comparison and the invariant on views say the same. -/
theorem projection_matches_iff (tidy : Tidy runId (db.view runId)) :
    ProjectionMatches db runId ↔ ∃ run, Consistent runId (db.view runId) run := by
  have sorted : orderBy (·.sequence) (db.eventsOf runId) = db.eventsOf runId :=
    sequences_sorted tidy.sequences
  constructor
  · rintro ⟨run, events, projected, listed, reduced⟩
    unfold getWorkflowRun at projected
    unfold listEvents at listed
    rw [sorted] at listed
    split at projected
    · cases projected
    rename_i row rest rows
    cases projected
    split at listed
    · cases listed
    rename_i first others shape
    cases listed
    obtain ⟨_, _, last, same, folded, settled⟩ := reduce_history_ok.mp reduced
    cases same
    have single : rest = [] := by
      have bound : (row :: rest).length ≤ 1 := rows ▸ tidy.runs
      simpa using bound
    have firstRun : first.runId = runId := by
      apply tidy.runIds first
      change first ∈ db.eventsOf runId
      rw [shape]
      exact List.mem_cons_self
    rw [firstRun] at folded
    have count := (fold_state_sound folded).1
    refine ⟨_, ⟨row, ?_, rfl⟩, ?_, settled⟩
    · rw [single] at rows
      exact rows
    · change foldHistory runId (db.eventsOf runId) = .ok (some _, ((db.eventsOf runId).length : Int) + 1)
      rw [shape, folded, ← count]
      rfl
  · rintro ⟨run, consistent⟩
    have accepted := consistent_accepted tidy consistent
    obtain ⟨row, rows, same⟩ := consistent.row
    have rows' : db.runsOf runId = [row] := rows
    obtain ⟨first, rest, _, shape, _⟩ := reduce_history_ok.mp accepted
    refine ⟨run, (db.view runId).events, ?_, ?_, accepted⟩
    · simp only [getWorkflowRun, rows']
      rw [same]
      rfl
    · unfold listEvents
      rw [sorted, shape, show db.eventsOf runId = first :: rest from shape]

end Matching

section Reading
variable {runId : String} {v : RunView} {run : WorkflowRun}

theorem consistent_sound (h : Consistent runId v run) :
    run.runId = runId ∧ v.events.map (·.sequence) = numbering v.events.length ∧
      ∃ created, FoldSound created v.events run := by
  obtain ⟨_, sequences, named, created, sound⟩ := fold_state_sound h.folded
  exact ⟨named, sequences, created, sound⟩

theorem consistent_steps (h : Consistent runId v run) : run.steps = readSteps v := by
  obtain ⟨row, _, same⟩ := h.row
  rw [same]
  rfl

theorem row_read (h : Consistent runId v run) {row : StepRow} (member : row ∈ v.steps) :
    stepFromRow (dependencies v.dependencies) row ∈ run.steps := by
  rw [consistent_steps h, readSteps]
  exact List.mem_map_of_mem (mem_orderBy.mpr member)

theorem step_stored (h : Consistent runId v run) {step : StepRecord} (member : step ∈ run.steps) :
    ∃ row ∈ v.steps, stepFromRow (dependencies v.dependencies) row = step := by
  rw [consistent_steps h, readSteps] at member
  obtain ⟨row, inside, same⟩ := List.mem_map.mp member
  exact ⟨row, mem_orderBy.mp inside, same⟩

theorem consistent_ids (h : Consistent runId v run) :
    ((orderBy (·.position) v.steps).map (·.id)).Nodup := by
  obtain ⟨_, _, _, sound⟩ := consistent_sound h
  have distinct := sound.distinct
  rw [consistent_steps h, readSteps, List.map_map] at distinct
  exact distinct

theorem consistent_row_unique (h : Consistent runId v run) {a b : StepRow} (ha : a ∈ v.steps)
    (hb : b ∈ v.steps) (same : a.id = b.id) : a = b :=
  List.inj_on_of_nodup_map (consistent_ids h) (mem_orderBy.mpr ha) (mem_orderBy.mpr hb) same

theorem consistent_status (h : Consistent runId v run) {row : WorkflowRunRow}
    (member : row ∈ v.runs) : run.status = row.status := by
  obtain ⟨only, rows, same⟩ := h.row
  rw [rows, List.mem_singleton] at member
  rw [same, member]
  rfl

theorem find_step_unique {run : WorkflowRun} (distinct : (run.steps.map (·.id)).Nodup)
    {step : StepRecord} (member : step ∈ run.steps) :
    ∃ index, findStepWithIndex run step.id = .ok (index, step) ∧ run.steps[index]? = some step := by
  obtain ⟨index, found, lookup⟩ := find_step_exists member
  obtain ⟨present, named⟩ := find_step_with_index_ok lookup
  have same : found = step :=
    List.inj_on_of_nodup_map distinct (List.mem_of_getElem? present) member named
  subst same
  exact ⟨index, lookup, present⟩

theorem dependency_exists {created : WorkflowRunCreatedPayload} {events : List WorkflowRunEvent}
    (sound : FoldSound created events run) {step : StepRecord} (member : step ∈ run.steps) {d : String}
    (inside : d ∈ step.dependsOn) : ∃ dep ∈ run.steps, dep.id = d := by
  obtain ⟨first, _, _, creation, _⟩ := sound.bracketed.creation
  obtain ⟨_, _, _, checked, _⟩ := validate_definitions_ok creation.valid
  have defined : snapshot step ∈ created.steps := by
    rw [← sound.snapshots]
    exact List.mem_map_of_mem member
  obtain ⟨_, _, _, known⟩ := check_definition_ok.mp (checked _ defined)
  obtain ⟨definition, present, named⟩ := List.mem_map.mp (known d inside)
  rw [← sound.snapshots] at present
  obtain ⟨dep, depMember, same⟩ := List.mem_map.mp present
  exact ⟨dep, depMember, by rw [← named, ← same]; rfl⟩

theorem sound_depends {created : WorkflowRunCreatedPayload} {events : List WorkflowRunEvent}
    (sound : FoldSound created events run) {step : StepRecord} (member : step ∈ run.steps) :
    dependsOnOf created.steps step.id = step.dependsOn := by
  rw [← sound.snapshots]
  simp only [dependsOnOf, List.find?_map]
  cases found : run.steps.find? ((fun d => decide (d.id = step.id)) ∘ snapshot) with
  | none =>
    have missing := List.find?_eq_none.mp found step member
    simp [snapshot] at missing
  | some other =>
    have looked := List.find?_some found
    simp only [Function.comp, decide_eq_true_eq] at looked
    have named : other.id = step.id := looked
    rw [List.inj_on_of_nodup_map sound.distinct (List.mem_of_find?_eq_some found) member named]
    rfl

theorem mem_dependencies {rows : List DependencyRow} {stepId d : String} :
    d ∈ dependencies rows stepId ↔ ∃ row ∈ rows, row.stepId = stepId ∧ row.dependencyStepId = d := by
  simp [dependencies, and_assoc]

/-- A step the database does not see as blocked is ready for the reducer. -/
theorem ready_read (h : Consistent runId v run) {row : StepRow} (member : row ∈ v.steps)
    (ready : ¬ v.Blocked row.id) :
    ∀ d ∈ (stepFromRow (dependencies v.dependencies) row).dependsOn, d ∈ completedIds run.steps := by
  intro d inside
  obtain ⟨_, _, created, sound⟩ := consistent_sound h
  obtain ⟨dep, present, named⟩ := dependency_exists sound (row_read h member) inside
  obtain ⟨depRow, depMember, same⟩ := step_stored h present
  obtain ⟨link, linkMember, source, target⟩ := mem_dependencies.mp inside
  refine completed_ids_mem.mpr ⟨dep, present, ?_, named⟩
  by_contra unfinished
  refine ready ⟨link, linkMember, source, depRow, depMember, ?_, ?_⟩
  · rw [target, ← named, ← same]
    rfl
  · rw [← same] at unfinished
    exact unfinished

/-- A step that is ready for the reducer is not blocked in the database. -/
theorem ready_unblocked (h : Consistent runId v run) {row : StepRow}
    (ready : ∀ d ∈ (stepFromRow (dependencies v.dependencies) row).dependsOn,
      d ∈ completedIds run.steps) : ¬ v.Blocked row.id := by
  rintro ⟨link, linkMember, source, depRow, depMember, target, unfinished⟩
  obtain ⟨_, _, _, sound⟩ := consistent_sound h
  have listed : link.dependencyStepId ∈ (stepFromRow (dependencies v.dependencies) row).dependsOn :=
    mem_dependencies.mpr ⟨link, linkMember, source, rfl⟩
  obtain ⟨dep, present, completed, named⟩ := completed_ids_mem.mp (ready _ listed)
  have same := List.inj_on_of_nodup_map sound.distinct present (row_read h depMember)
    (named.trans target.symm)
  rw [same] at completed
  exact unfinished completed

end Reading

section Simulation
variable {runId : String} {v w : RunView} {run : WorkflowRun} {row : StepRow} {now : Datetime}
  {write : Write}

/-- Updating the row of one step is, for a reader, writing that step's place in the list. -/
theorem read_updated (h : Consistent runId v run) (member : row ∈ v.steps) {set : StepRow → StepRow}
    (keeps : ∀ r, immutable (set r) = immutable r) {index : Nat}
    (present : run.steps[index]? = some (stepFromRow (dependencies v.dependencies) row)) :
    run.steps.set index (stepFromRow (dependencies v.dependencies) (set row)) =
      readSteps (v.setStep row.id set) := by
  obtain ⟨_, _, _, sound⟩ := consistent_sound h
  have samePosition : ∀ r, (set r).position = r.position := fun r => congrArg (·.2.position) (keeps r)
  rw [set_eq_updateWhere sound.distinct present, consistent_steps h]
  simp only [readSteps, RunView.setStep]
  rw [orderBy_updateWhere fun r _ => samePosition r]
  simp only [updateWhere, List.map_map]
  apply List.map_congr_left
  intro r inside
  simp only [Function.comp]
  by_cases here : r.id = row.id
  · have same : r = row := consistent_row_unique h (mem_orderBy.mp inside) member here
    subst same
    simp [stepFromRow]
  · have other : (stepFromRow (dependencies v.dependencies) r).id ≠
        (stepFromRow (dependencies v.dependencies) row).id := here
    simp [here, other]

theorem supported_version {version : Int}
    (h : version = eventSchemaVersion ∨ version = attemptEventSchemaVersion ∨
      version = workflowRunCreatedSchemaVersion) : version ∈ supportedEventSchemaVersions := by
  simpa [supportedEventSchemaVersions] using h

/-- The reducer takes an event the storage appends to a running run's history. -/
theorem reduce_appended {events : List WorkflowRunEvent}
    (sequences : events.map (·.sequence) = numbering events.length)
    (running : run.status = .running) {payload : EventPayload}
    (notCreation : payload.eventType ≠ .workflowRunCreated) {stepId : Option String}
    {attempt : Option Int} {version : Int} (supported : version ∈ supportedEventSchemaVersions)
    {next : WorkflowRun}
    (advanced : advanceRun run (eventOf runId events payload now stepId attempt version) payload =
      .ok next) :
    reduceEvent runId (some run, events.length + 1)
      (eventOf runId events payload now stepId attempt version) =
        .ok (some next, events.length + 1 + 1) := by
  have parsed : parsePayload payload.eventType (some payload) = some payload := by
    simp [parsePayload]
  have inOrder : (eventOf runId events payload now stepId attempt version).sequence =
      events.length + 1 := next_of_sequences sequences
  have sameRun : (eventOf runId events payload now stepId attempt version).runId = runId := rfl
  have accepted : (eventOf runId events payload now stepId attempt version).schemaVersion ∈
      supportedEventSchemaVersions := supported
  unfold reduceEvent
  rw [if_neg (not_not.mpr sameRun), if_neg (not_not.mpr inOrder), if_neg (not_not.mpr accepted)]
  simp only [eventOf] at parsed advanced ⊢
  rw [parsed]
  cases payload with
  | workflowRunCreated created => exact absurd rfl notCreation
  | _ => simp only [running, ne_eq, not_true_eq_false, ↓reduceIte, advanced, Except.map]

theorem advance_run_step {event : WorkflowRunEvent} {payload : EventPayload} {stepId : String}
    {attempt : Int} {index : Nat} {step next : StepRecord}
    (named : event.stepId = some stepId) (number : event.attempt = some attempt)
    (found : findStepWithIndex run stepId = .ok (index, step))
    (advanced : advanceStep run event attempt step payload = .ok next) :
    advanceRun run event payload = .ok { run with steps := run.steps.set index next } := by
  cases payload with
  | workflowRunCompleted => simp [advanceStep, reject] at advanced
  | workflowRunFailed failed => simp [advanceStep, reject] at advanced
  | _ => simp only [advanceRun, named, number, found, advanced]

theorem settle_unfinished (none : ∀ step ∈ run.steps, step.status ≠ .failed)
    (some : ∃ step ∈ run.steps, step.status ≠ .completed) : settle run = .ok run :=
  settle_ok.mpr ⟨rfl, fun _ => ⟨none, some⟩⟩

theorem settle_terminal (ended : run.status ≠ .running) : settle run = .ok run :=
  settle_ok.mpr ⟨rfl, fun running => absurd running ended⟩

/-- One step event of the storage, folded: the reader's run is the run folded so far with
    the step's record replaced. -/
theorem fold_step_event (h : Consistent runId v run) (running : run.status = .running)
    (member : row ∈ v.steps) {payload : EventPayload} {attempt version : Int}
    (supported : version ∈ supportedEventSchemaVersions) {set : StepRow → StepRow}
    (keeps : ∀ r, immutable (set r) = immutable r)
    (advanced : advanceStep run
      (eventOf runId v.events payload now (some row.id) (some attempt) version) attempt
      (stepFromRow (dependencies v.dependencies) row) payload =
        .ok (stepFromRow (dependencies v.dependencies) (set row))) :
    foldHistory runId (v.events ++
        [eventOf runId v.events payload now (some row.id) (some attempt) version]) =
      .ok (some { run with steps := readSteps (v.setStep row.id set) }, v.events.length + 1 + 1) := by
  obtain ⟨_, sequences, _, sound⟩ := consistent_sound h
  obtain ⟨index, found, present⟩ := find_step_unique sound.distinct (row_read h member)
  rw [← read_updated h member keeps present]
  refine replay_snoc_ok.mpr ⟨_, h.folded, reduce_appended sequences running ?_ supported
    (advance_run_step rfl rfl found advanced)⟩
  cases payload with
  | workflowRunCreated created => simp [advanceStep, reject] at advanced
  | _ => simp [EventPayload.eventType]

end Simulation

end Crashsafe
