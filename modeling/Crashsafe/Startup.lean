import Crashsafe.Library.Tables
import Crashsafe.Projection

/- Opening engine.db: `_initialize` drops, migrates or repairs the tables of older versions
   before it creates those that are missing. -/
namespace Crashsafe
open Tables Replay

section Schemas

def workflowRunsSchema : Schema where
  columns := ["run_id", "name", "status", "definition_json", "created_at", "updated_at",
    "completed_at"]
  notNull := ["name", "status", "definition_json", "created_at", "updated_at"]
  unique := [["run_id"]]
  parents := []

def stepsSchema : Schema where
  columns := ["run_id", "id", "position", "operation", "status", "request_json", "operation_key",
    "tool_key", "output_json", "attempts", "next_attempt_at", "last_error", "created_at",
    "updated_at", "completed_at"]
  notNull := ["run_id", "id", "position", "operation", "status", "request_json", "operation_key",
    "tool_key", "attempts", "created_at", "updated_at"]
  unique := [["operation_key"], ["run_id", "id"], ["run_id", "position"]]
  parents := ["workflow_runs"]

def stepDependenciesSchema : Schema where
  columns := ["run_id", "step_id", "dependency_step_id"]
  notNull := ["run_id", "step_id", "dependency_step_id"]
  unique := [["run_id", "step_id", "dependency_step_id"]]
  parents := ["steps", "steps"]

def workflowRunEventsSchema : Schema where
  columns := ["id", "run_id", "sequence", "event_type", "schema_version", "step_id", "attempt",
    "payload_json", "occurred_at"]
  notNull := ["run_id", "sequence", "event_type", "schema_version", "payload_json", "occurred_at"]
  unique := [["id"], ["run_id", "sequence"]]
  parents := []

def workflowRunLeasesSchema : Schema where
  columns := ["run_id", "owner_id", "fence_token", "lease_expires_at", "updated_at"]
  notNull := ["owner_id", "fence_token", "lease_expires_at", "updated_at"]
  unique := [["run_id"]]
  parents := ["workflow_runs"]

def toolThrottlesSchema : Schema where
  columns := ["tool_key", "blocked_until", "reason", "updated_at"]
  notNull := ["blocked_until", "reason", "updated_at"]
  unique := [["tool_key"]]
  parents := []

end Schemas

inductive StartupError where
  | legacyDatabase (message : String)
  | sql (e : SqlError)
  deriving DecidableEq, Repr

/- Children go before their parents, so that no foreign key stops a drop. -/
def dropEmptyLegacySchema (f : File) : File :=
  ["step_dependencies", "workflow_leases", "workflow_run_leases", "tool_throttles", "steps",
    "workflows", "workflow_runs", "workflow_events", "workflow_run_events"].foldl
    (fun f name => dropTable name f) f

def currentEventType : SqlValue → SqlValue
  | .text "WorkflowCreated" => .text "WorkflowRunCreated"
  | .text "WorkflowCompleted" => .text "WorkflowRunCompleted"
  | .text "WorkflowFailed" => .text "WorkflowRunFailed"
  | eventType => eventType

def migrateV3ToV4 (f : File) : File × Option SqlError :=
  atomically
    [fun f => .ok (dropIndex "idx_steps_runnable" f),
      fun f => .ok (dropIndex "idx_workflow_events_order" f),
      renameTable false "workflows" "workflow_runs",
      renameColumn "workflow_runs" "id" "run_id",
      renameColumn "steps" "workflow_id" "run_id",
      renameColumn "step_dependencies" "workflow_id" "run_id",
      renameTable false "workflow_events" "workflow_run_events",
      renameColumn "workflow_run_events" "workflow_id" "run_id",
      renameTable false "workflow_leases" "workflow_run_leases",
      renameColumn "workflow_run_leases" "workflow_id" "run_id",
      updateColumn "workflow_run_events" "event_type" currentEventType] f

/-- `PRAGMA foreign_key_list`, which is empty for a table that does not exist. -/
def foreignKeyTables (f : File) (name : String) : List String :=
  if (f.tables name).isSome then f.parents name else []

def repairV4ForeignKeys (f : File) : File × Option SqlError :=
  let brokenSteps := "workflows" ∈ foreignKeyTables f "steps"
  let brokenLeases := "workflows" ∈ foreignKeyTables f "workflow_run_leases"
  if ¬ brokenSteps ∧ ¬ brokenLeases then (f, none)
  else
    atomically
      ((if brokenSteps then
          (fun f => .ok (dropIndex "idx_steps_runnable" f)) ::
            rebuildTable "steps" "steps_with_legacy_foreign_key" stepsSchema
        else []) ++
        if brokenLeases then
          rebuildTable "workflow_run_leases" "workflow_run_leases_with_legacy_foreign_key"
            workflowRunLeasesSchema
        else []) f

def schemaScript : List Statement :=
  [createTableIfMissing "workflow_runs" workflowRunsSchema,
    createTableIfMissing "steps" stepsSchema,
    createTableIfMissing "step_dependencies" stepDependenciesSchema,
    createIndexIfMissing "idx_steps_runnable" "steps"
      ["status", "next_attempt_at", "run_id", "position"],
    createTableIfMissing "workflow_run_events" workflowRunEventsSchema,
    createIndexIfMissing "idx_workflow_run_events_order" "workflow_run_events"
      ["run_id", "sequence"],
    createTableIfMissing "workflow_run_leases" workflowRunLeasesSchema,
    createTableIfMissing "tool_throttles" toolThrottlesSchema]

def createSchema (f : File) : File × Option StartupError :=
  let (f, error) := runScript schemaScript f
  (f, error.map .sql)

/-- `_initialize`; an exception leaves what the statements before it committed. -/
def initializeStorage (f : File) : File × Option StartupError :=
  match f.tables "workflows" with
  | some workflows =>
    if "definition_json" ∉ workflows.columns then
      if workflows.rows ≠ [] then
        (f, some (.legacyDatabase
          "database uses the pre-DAG schema; back it up and remove .crashsafe/"))
      else createSchema (dropEmptyLegacySchema f)
    else
      match migrateV3ToV4 f with
      | (f, some e) => (f, some (.sql e))
      | (f, none) => createSchema f
  | none =>
    match repairV4ForeignKeys f with
    | (f, some e) => (f, some (.sql e))
    | (f, none) => createSchema f

section Contents

/-- The tables of runs, steps, dependencies, events and leases, under both their names. -/
def durableTables : List String :=
  ["workflows", "workflow_runs", "steps", "step_dependencies", "workflow_events",
    "workflow_run_events", "workflow_leases", "workflow_run_leases"]

/-- The table and the columns that a row of version 3 has in version 4. -/
def currentRecord (name : String) (r : Record) : String × Record :=
  match name with
  | "workflows" => ("workflow_runs", renameKey "id" "run_id" r)
  | "workflow_events" => ("workflow_run_events",
      setValue "event_type" currentEventType (renameKey "workflow_id" "run_id" r))
  | "workflow_leases" => ("workflow_run_leases", renameKey "workflow_id" "run_id" r)
  | "steps" => ("steps", renameKey "workflow_id" "run_id" r)
  | "step_dependencies" => ("step_dependencies", renameKey "workflow_id" "run_id" r)
  | _ => (name, r)

def Survives (name : String) (r : Record) (g : File) : Prop :=
  r ∈ g.records name ∨ (currentRecord name r).2 ∈ g.records (currentRecord name r).1

/- What a file holds, read as version 4. -/
structure Content where
  runs : List Record
  steps : List Record
  dependencies : List Record
  events : List Record
  leases : List Record

def migratedRecords (f : File) (name : String) : List Record :=
  (f.records name).map fun r => (currentRecord name r).2

def content (f : File) : Content where
  runs := migratedRecords f "workflows" ++ migratedRecords f "workflow_runs"
  steps := migratedRecords f "steps"
  dependencies := migratedRecords f "step_dependencies"
  events := migratedRecords f "workflow_events" ++ migratedRecords f "workflow_run_events"
  leases := migratedRecords f "workflow_leases" ++ migratedRecords f "workflow_run_leases"

/-- A step table of version 3 differs from one of version 4 in the name of one column. -/
def legacyStepsColumns : List String := "workflow_id" :: stepsSchema.columns.tail

def legacyEventsColumns : List String := workflowRunEventsSchema.columns.map (renamed "run_id" "workflow_id")

/-- The table `workflows` from before steps had dependencies. -/
def PreDag (f : File) : Prop :=
  ∃ t, f.tables "workflows" = some t ∧ "definition_json" ∉ t.columns

/- Tables of these names have the columns of a version that had them. -/
structure KnownColumns (f : File) : Prop where
  steps : ∀ t, f.tables "steps" = some t →
    t.columns = legacyStepsColumns ∨ t.columns = stepsSchema.columns
  legacyEvents : ∀ t, f.tables "workflow_events" = some t → t.columns = legacyEventsColumns
  events : ∀ t, f.tables "workflow_run_events" = some t →
    t.columns = workflowRunEventsSchema.columns
  leases : ∀ t, f.tables "workflow_run_leases" = some t →
    t.columns = workflowRunLeasesSchema.columns

/-- Every table keeps its columns and its rows. -/
def Unchanged (f g : File) : Prop := ∀ name t, f.tables name = some t → g.tables name = some t

structure OpensSafely (f : File) : Prop where
  raised : ∀ e, (initializeStorage f).2 = some e → Unchanged f (initializeStorage f).1
  kept : (initializeStorage f).2 = none → ∀ name ∈ durableTables, ∀ r ∈ f.records name,
    Survives name r (initializeStorage f).1
  consistent : (initializeStorage f).2 = none → ∀ (decode : Content → Database) runId,
    ProjectionMatches (decode (content f)) runId →
      ProjectionMatches (decode (content (initializeStorage f).1)) runId
  again : (initializeStorage f).2 = none →
    initializeStorage (initializeStorage f).1 = ((initializeStorage f).1, none)

/-- An empty `workflows` table of the pre-DAG schema next to a table with rows. -/
def Discards (f : File) : Prop :=
  PreDag f ∧ f.records "workflows" = [] ∧ ∃ name ∈ durableTables, f.records name ≠ []

end Contents

section Script
variable {f g : File}

/- What a file of version 4 leaves to repair: nothing. -/
structure Current (f : File) : Prop where
  renamed : f.tables "workflows" = none
  steps : "workflows" ∉ foreignKeyTables f "steps"
  leases : "workflows" ∉ foreignKeyTables f "workflow_run_leases"

theorem schema_script_additive : ∀ s ∈ schemaScript, Additive s := by
  intro s member
  simp only [schemaScript, List.mem_cons, List.not_mem_nil, or_false] at member
  rcases member with rfl | rfl | rfl | rfl | rfl | rfl | rfl | rfl
  all_goals first
    | exact create_table_additive _ _
    | exact create_index_additive _ _ _

theorem create_schema_extends : Extends f (createSchema f).1 :=
  run_script_extends schema_script_additive f

theorem create_schema_again (done : (createSchema f).2 = none) :
    createSchema (createSchema f).1 = ((createSchema f).1, none) := by
  have ran : (runScript schemaScript f).2 = none := by
    simpa [createSchema] using done
  have idle := run_script_idle fun s member =>
    run_script_again schema_script_additive ran s member _ extends_refl
  simp only [createSchema, idle, Option.map_none]

theorem current_opens (current : Current f) : initializeStorage f = createSchema f := by
  have sound : repairV4ForeignKeys f = (f, none) := by
    dsimp only [repairV4ForeignKeys]
    rw [if_pos ⟨current.steps, current.leases⟩]
  simp only [initializeStorage, current.renamed, sound]

/-- No statement of the script makes a table refer to `workflows`. -/
theorem create_schema_current (current : Current f) : Current (createSchema f).1 := by
  change Current (runScript schemaScript f).1
  refine run_script_invariant ?_ current
  have table : ∀ name schema, name ≠ "workflows" → "workflows" ∉ schema.parents →
      ∀ f g, createTableIfMissing name schema f = .ok g → Current f → Current g := by
    intro name schema differs absent f g created current
    obtain ⟨g', created', -, tables, parents⟩ := create_missing_ok name schema f
    obtain rfl : g' = g := Except.ok.inj (created'.symm.trans created)
    have keeps : ∀ child, "workflows" ∉ foreignKeyTables f child →
        "workflows" ∉ foreignKeyTables g' child := by
      intro child sound
      simp only [foreignKeyTables, tables, parents, Function.update_apply] at sound ⊢
      by_cases same : child = name
      · subst same
        cases present : f.tables child with
        | none => simp [absent]
        | some t => simpa [present] using sound
      · simpa [same] using sound
    refine ⟨?_, keeps _ current.steps, keeps _ current.leases⟩
    rw [tables, Function.update_of_ne differs.symm, current.renamed]
  have index : ∀ index name columns, ∀ f g, createIndexIfMissing index name columns f = .ok g →
      Current f → Current g := by
    intro index name columns f g created ⟨renamed, steps, leases⟩
    obtain ⟨tables, parents, -⟩ := create_index_kept created
    constructor <;> simpa only [foreignKeyTables, tables, parents]
  intro s member
  simp only [schemaScript, List.mem_cons, List.not_mem_nil, or_false] at member
  rcases member with rfl | rfl | rfl | rfl | rfl | rfl | rfl | rfl
  all_goals first
    | exact index _ _ _
    | exact table _ _ (by decide) (by decide)

theorem create_schema_done
    (steps : ∀ t, f.tables "steps" = some t → t.columns = stepsSchema.columns)
    (events : ∀ t, f.tables "workflow_run_events" = some t →
      t.columns = workflowRunEventsSchema.columns) : (createSchema f).2 = none := by
  obtain ⟨a, ran1, -, tables1, -⟩ := create_missing_ok "workflow_runs" workflowRunsSchema f
  obtain ⟨b, ran2, -, tables2, -⟩ := create_missing_ok "steps" stepsSchema a
  obtain ⟨c, ran3, -, tables3, -⟩ := create_missing_ok "step_dependencies" stepDependenciesSchema b
  have stepsTable : ∃ t, c.tables "steps" = some t ∧ t.columns = stepsSchema.columns := by
    refine ⟨(f.tables "steps").getD ⟨stepsSchema.columns, []⟩,
      by simp [tables3, tables2, tables1], ?_⟩
    cases present : f.tables "steps" with
    | none => rfl
    | some t => exact steps t present
  obtain ⟨t, present, columns⟩ := stepsTable
  have columned : ∀ c ∈ ["status", "next_attempt_at", "run_id", "position"], c ∈ t.columns := by
    rw [columns]
    decide
  obtain ⟨d, ran4, tables4, -⟩ := create_index_ok "idx_steps_runnable" present columned
  obtain ⟨e, ran5, -, tables5, -⟩ :=
    create_missing_ok "workflow_run_events" workflowRunEventsSchema d
  have eventsTable : ∃ t, e.tables "workflow_run_events" = some t ∧
      t.columns = workflowRunEventsSchema.columns := by
    refine ⟨(f.tables "workflow_run_events").getD ⟨workflowRunEventsSchema.columns, []⟩,
      by simp [tables5, tables4, tables3, tables2, tables1], ?_⟩
    cases present : f.tables "workflow_run_events" with
    | none => rfl
    | some t => exact events t present
  obtain ⟨t, present, columns⟩ := eventsTable
  have columned : ∀ c ∈ ["run_id", "sequence"], c ∈ t.columns := by
    rw [columns]
    decide
  obtain ⟨h, ran6, -⟩ := create_index_ok "idx_workflow_run_events_order" present columned
  obtain ⟨i, ran7, -⟩ := create_missing_ok "workflow_run_leases" workflowRunLeasesSchema h
  obtain ⟨j, ran8, -⟩ := create_missing_ok "tool_throttles" toolThrottlesSchema i
  simp only [createSchema, schemaScript, runScript, ran1, ran2, ran3, ran4, ran5, ran6, ran7, ran8,
    Option.map_none]

end Script

section Branches
variable {f g : File}

/-- All rows are there, under the names of version 4, and the file reads the same. -/
structure Carries (f g : File) : Prop where
  kept : ∀ name ∈ durableTables, ∀ r ∈ f.records name, Survives name r g
  content : content g = content f

theorem carries_extends {h : File} (carries : Carries f g) (grown : Extends g h) : Carries f h where
  kept name member r inside := by
    unfold Survives
    rw [grown.records, grown.records]
    exact carries.kept name member r inside
  content := by
    rw [← carries.content]
    simp only [Crashsafe.content, migratedRecords, grown.records]

theorem known_steps {t : Table}
    (known : t.columns = legacyStepsColumns ∨ t.columns = stepsSchema.columns) :
    t.columns.map (renamed "workflow_id" "run_id") = stepsSchema.columns := by
  rcases known with columns | columns
  · rw [columns]
    decide
  · rw [columns]
    decide

/- What the migration makes of the tables of version 3. -/
structure Migrated (f g : File) : Prop where
  fresh : ∀ name ∈ ["workflow_runs", "workflow_run_events", "workflow_run_leases"],
    f.records name = []
  gone : ∀ name ∈ ["workflows", "workflow_events", "workflow_leases"], g.tables name = none
  runs : g.records "workflow_runs" = (f.records "workflows").map (renameKey "id" "run_id")
  steps : ∃ t, f.tables "steps" = some t ∧
    g.tables "steps" = some { t with columns := t.columns.map (renamed "workflow_id" "run_id") }
  dependencies : g.records "step_dependencies" =
    (f.records "step_dependencies").map (renameKey "workflow_id" "run_id")
  events : ∃ t, f.tables "workflow_events" = some t ∧
    g.tables "workflow_run_events" = some (setColumn "event_type" currentEventType
      { t with columns := t.columns.map (renamed "workflow_id" "run_id") })
  leases : g.records "workflow_run_leases" =
    (f.records "workflow_leases").map (renameKey "workflow_id" "run_id")
  parents : ∀ name, "workflows" ∉ g.parents name

theorem migrate_ok (done : (migrateV3ToV4 f).2 = none) : Migrated f (migrateV3ToV4 f).1 := by
  have ran := atomically_ok done
  change replay _ f _ = .ok (migrateV3ToV4 f).1 at ran
  generalize (migrateV3ToV4 f).1 = g at ran
  obtain ⟨a, first, ran⟩ := replay_cons_ok.mp ran
  obtain ⟨b, second, ran⟩ := replay_cons_ok.mp ran
  cases first
  cases second
  obtain ⟨c, moveRuns, ran⟩ := replay_cons_ok.mp ran
  obtain ⟨d, keyRuns, ran⟩ := replay_cons_ok.mp ran
  obtain ⟨e, keySteps, ran⟩ := replay_cons_ok.mp ran
  obtain ⟨h, keyDependencies, ran⟩ := replay_cons_ok.mp ran
  obtain ⟨i, moveEvents, ran⟩ := replay_cons_ok.mp ran
  obtain ⟨j, keyEvents, ran⟩ := replay_cons_ok.mp ran
  obtain ⟨k, moveLeases, ran⟩ := replay_cons_ok.mp ran
  obtain ⟨l, keyLeases, ran⟩ := replay_cons_ok.mp ran
  obtain ⟨m, types, ran⟩ := replay_cons_ok.mp ran
  cases ran
  have parents2 : ∀ name, "workflows" ∉ c.parents name := fun name =>
    rename_table_away moveRuns (by decide)
  obtain ⟨runs, runsThere, runsFree, tables1, -⟩ := rename_table_ok moveRuns
  obtain ⟨runs', runsThere', -, -, parents3, tables2⟩ := rename_column_ok keyRuns
  obtain ⟨steps, stepsThere, -, -, parents4, tables3⟩ := rename_column_ok keySteps
  obtain ⟨deps, depsThere, -, -, parents5, tables4⟩ := rename_column_ok keyDependencies
  have parents6 : ∀ name, "workflows" ∉ i.parents name := fun name =>
    rename_table_parents moveEvents (by decide) (by
      rw [parents5, parents4, parents3]
      exact parents2)
  obtain ⟨events, eventsThere, eventsFree, tables5, -⟩ := rename_table_ok moveEvents
  obtain ⟨events', eventsThere', -, -, parents7, tables6⟩ := rename_column_ok keyEvents
  have parents8 : ∀ name, "workflows" ∉ k.parents name := fun name =>
    rename_table_parents moveLeases (by decide) (by
      rw [parents7]
      exact parents6)
  obtain ⟨leases, leasesThere, leasesFree, tables7, -⟩ := rename_table_ok moveLeases
  obtain ⟨leases', leasesThere', -, -, parents9, tables8⟩ := rename_column_ok keyLeases
  obtain ⟨typed, typedThere, parents10, tables9⟩ := update_column_ok types
  simp only [dropIndex, tables1, tables2, tables3, tables4, tables5, tables6, tables7, tables8,
    Function.update_apply, String.reduceEq, if_true, if_false, Option.some.injEq]
    at runsThere runsFree runsThere' stepsThere depsThere eventsThere eventsFree eventsThere'
      leasesThere leasesFree leasesThere' typedThere
  subst runsThere' eventsThere' leasesThere' typedThere
  have columns : g.tables = _ := tables9
  simp only [tables1, tables2, tables3, tables4, tables5, tables6, tables7, tables8] at columns
  refine ⟨?_, ?_, ?_, ⟨steps, stepsThere, ?_⟩, ?_, ⟨events, eventsThere, ?_⟩, ?_, fun name => ?_⟩
  · simp [File.records, runsFree, eventsFree, leasesFree]
  · simp [columns]
  · simp [File.records, columns, runsThere, rename_records]
  · simp [columns]
  · simp [File.records, columns, depsThere, rename_records]
  · simp [columns]
  · simp [File.records, columns, leasesThere, rename_records]
  · rw [parents10, parents9]
    exact parents8 name

theorem migrated_steps (migrated : Migrated f g) :
    g.records "steps" = (f.records "steps").map (renameKey "workflow_id" "run_id") := by
  obtain ⟨t, before, after⟩ := migrated.steps
  simp [File.records, before, after, rename_records]

theorem migrated_events (migrated : Migrated f g) :
    g.records "workflow_run_events" = (f.records "workflow_events").map
      (setValue "event_type" currentEventType ∘ renameKey "workflow_id" "run_id") := by
  obtain ⟨t, before, after⟩ := migrated.events
  simp [File.records, before, after, set_records, rename_records]

theorem migrated_carries (migrated : Migrated f g) : Carries f g := by
  have fresh := migrated.fresh
  have gone : ∀ name ∈ ["workflows", "workflow_events", "workflow_leases"], g.records name = [] :=
    fun name member => by simp [File.records, migrated.gone name member]
  simp only [List.forall_mem_cons, List.not_mem_nil, false_implies, implies_true, and_true]
    at fresh gone
  constructor
  · intro name member r inside
    simp only [durableTables, List.mem_cons, List.not_mem_nil, or_false] at member
    rcases member with rfl | rfl | rfl | rfl | rfl | rfl | rfl | rfl
    · right
      simpa [currentRecord, migrated.runs] using ⟨r, inside, rfl⟩
    · simp [fresh] at inside
    · right
      simpa [currentRecord, migrated_steps migrated] using ⟨r, inside, rfl⟩
    · right
      simpa [currentRecord, migrated.dependencies] using ⟨r, inside, rfl⟩
    · right
      simpa [currentRecord, migrated_events migrated] using ⟨r, inside, rfl⟩
    · simp [fresh] at inside
    · right
      simpa [currentRecord, migrated.leases] using ⟨r, inside, rfl⟩
    · simp [fresh] at inside
  · simp [content, migratedRecords, currentRecord, fresh, gone, migrated.runs,
      migrated_steps migrated, migrated.dependencies, migrated_events migrated, migrated.leases,
      rename_key_again]

theorem migrated_current (migrated : Migrated f g) : Current g where
  renamed := migrated.gone _ (by simp)
  steps := by
    unfold foreignKeyTables
    split
    · exact migrated.parents _
    · simp
  leases := by
    unfold foreignKeyTables
    split
    · exact migrated.parents _
    · simp

/-- The tables that the script indexes have their columns after a migration. -/
theorem migrated_done (migrated : Migrated f g) (known : KnownColumns f) :
    (createSchema g).2 = none := by
  refine create_schema_done ?_ ?_
  · intro t present
    obtain ⟨old, before, after⟩ := migrated.steps
    rw [after] at present
    cases present
    exact known_steps (known.steps old before)
  · intro t present
    obtain ⟨old, before, after⟩ := migrated.events
    rw [after] at present
    cases present
    simp only [setColumn, known.legacyEvents old before]
    decide

/- What a repair makes of one table. -/
structure RebuiltTable (name : String) (schema : Schema) (f g : File) : Prop where
  tables : g.tables = f.tables ∨ ∃ t, f.tables name = some t ∧
    t.columns.length = schema.columns.length ∧
    g.tables = Function.update f.tables name (some ⟨schema.columns, t.rows⟩)
  sound : "workflows" ∉ foreignKeyTables g name
  others : ∀ other ∈ ["steps", "workflow_run_leases"], other ≠ name →
    foreignKeyTables g other = foreignKeyTables f other

theorem rebuild_mends {name aside : String} {schema : Schema} (apart : name ≠ aside)
    (outside : aside ∉ ["steps", "workflow_run_leases"]) (parents : "workflows" ∉ schema.parents)
    (ran : replay (fun f statement => statement f) f (rebuildTable name aside schema) = .ok g) :
    RebuiltTable name schema f g := by
  obtain ⟨t, present, free, width, tables, follows⟩ := rebuild_table_ok apart ran
  refine ⟨.inr ⟨t, present, width, tables⟩, ?_, fun other member differs => ?_⟩
  · simpa [foreignKeyTables, tables, follows name apart] using parents
  · have elsewhere : other ≠ aside := by
      rintro rfl
      exact outside member
    simp [foreignKeyTables, tables, follows other elsewhere, differs]

theorem repaired_sound {name : String} {schema : Schema}
    (sound : "workflows" ∉ foreignKeyTables f name) : RebuiltTable name schema f f :=
  ⟨.inl rfl, sound, fun _ _ _ => rfl⟩

theorem repair_ok (done : (repairV4ForeignKeys f).2 = none) :
    ∃ m, RebuiltTable "steps" stepsSchema f m ∧
      RebuiltTable "workflow_run_leases" workflowRunLeasesSchema m (repairV4ForeignKeys f).1 := by
  dsimp only [repairV4ForeignKeys] at done ⊢
  split
  · rename_i sound
    exact ⟨f, repaired_sound sound.1, repaired_sound sound.2⟩
  rename_i broken
  rw [if_neg broken] at done
  obtain ⟨m, first, second⟩ := replay_append_ok.mp (atomically_ok done)
  generalize (atomically _ f).1 = g at second
  have steps : RebuiltTable "steps" stepsSchema f m := by
    split at first
    · obtain ⟨unindexed, drop, rebuilt⟩ := replay_cons_ok.mp first
      cases drop
      obtain ⟨tables, sound, others⟩ := rebuild_mends (by decide) (by decide) (by decide) rebuilt
      exact ⟨tables, sound, others⟩
    · rename_i sound
      cases first
      exact repaired_sound sound
  refine ⟨m, steps, ?_⟩
  have same := steps.others "workflow_run_leases" (by simp) (by decide)
  split at second
  · exact rebuild_mends (by decide) (by decide) (by decide) second
  · rename_i sound
    cases second
    exact repaired_sound (same ▸ sound)

theorem repair_error (failed : (repairV4ForeignKeys f).2 ≠ none) : (repairV4ForeignKeys f).1 = f := by
  dsimp only [repairV4ForeignKeys] at failed ⊢
  split
  · rfl
  · rename_i broken
    rw [if_neg broken] at failed
    exact atomically_error failed

theorem repaired_current {m : File} (renamed : f.tables "workflows" = none)
    (steps : RebuiltTable "steps" stepsSchema f m)
    (leases : RebuiltTable "workflow_run_leases" workflowRunLeasesSchema m g) : Current g where
  renamed := by
    have kept : m.tables "workflows" = none := by
      rcases steps.tables with same | ⟨t, -, -, rebuilt⟩
      · rw [same, renamed]
      · simp [rebuilt, renamed]
    rcases leases.tables with same | ⟨t, -, -, rebuilt⟩
    · rw [same, kept]
    · simp [rebuilt, kept]
  steps := by
    rw [leases.others "steps" (by simp) (by decide)]
    exact steps.sound
  leases := leases.sound

/-- Leases are rebuilt under the columns they had. -/
theorem repaired_leases {m : File} (known : ∀ t, m.tables "workflow_run_leases" = some t →
      t.columns = workflowRunLeasesSchema.columns)
    (leases : RebuiltTable "workflow_run_leases" workflowRunLeasesSchema m g) : g.tables = m.tables := by
  rcases leases.tables with same | ⟨t, present, -, rebuilt⟩
  · exact same
  · rw [rebuilt, ← known t present, ← present, Function.update_eq_self]

theorem repaired_carries (known : KnownColumns f)
    (steps : g.tables = f.tables ∨ ∃ t, f.tables "steps" = some t ∧
      g.tables = Function.update f.tables "steps" (some ⟨stepsSchema.columns, t.rows⟩)) :
    Carries f g := by
  rcases steps with same | ⟨t, present, rebuilt⟩
  · have records : ∀ name, g.records name = f.records name := fun name => by
      simp only [File.records, same]
    refine ⟨fun name _ r inside => .inl (by rwa [records]), ?_⟩
    simp only [content, migratedRecords, records]
  · have others : ∀ name, name ≠ "steps" → g.records name = f.records name := fun name differs => by
      simp only [File.records, rebuilt, Function.update_of_ne differs]
    have renamed : g.records "steps" = (f.records "steps").map (renameKey "workflow_id" "run_id") := by
      simp only [File.records, rebuilt, Function.update_self, present]
      rw [← known_steps (known.steps t present), rename_records]
    constructor
    · intro name _ r inside
      by_cases step : name = "steps"
      · subst step
        right
        simpa [currentRecord, renamed] using ⟨r, inside, rfl⟩
      · left
        rwa [others name step]
    · simp [content, migratedRecords, currentRecord, others, renamed, rename_key_again]

theorem drop_legacy_tables {name : String} : (dropEmptyLegacySchema f).tables name =
    if name ∈ ["step_dependencies", "workflow_leases", "workflow_run_leases", "tool_throttles",
      "steps", "workflows", "workflow_runs", "workflow_events", "workflow_run_events"] then none
    else f.tables name := drop_tables _

theorem dropped_durable {name : String} (member : name ∈ durableTables) :
    (dropEmptyLegacySchema f).tables name = none := by
  rw [drop_legacy_tables, if_pos]
  revert member
  simp only [durableTables, List.mem_cons, List.not_mem_nil, or_false]
  tauto

theorem dropped_current : Current (dropEmptyLegacySchema f) where
  renamed := dropped_durable (by decide)
  steps := by simp [foreignKeyTables, dropped_durable (show "steps" ∈ durableTables by decide)]
  leases := by
    simp [foreignKeyTables, dropped_durable (show "workflow_run_leases" ∈ durableTables by decide)]

theorem dropped_done : (createSchema (dropEmptyLegacySchema f)).2 = none := by
  apply create_schema_done
  · simp [dropped_durable (show "steps" ∈ durableTables by decide)]
  · simp [dropped_durable (show "workflow_run_events" ∈ durableTables by decide)]

theorem dropped_carries (empty : ∀ name ∈ durableTables, f.records name = []) :
    Carries f (dropEmptyLegacySchema f) := by
  have gone : ∀ name ∈ durableTables, (dropEmptyLegacySchema f).records name = [] :=
    fun name member => by simp [File.records, dropped_durable member]
  constructor
  · intro name member r inside
    simp [empty name member] at inside
  · have same : ∀ name ∈ durableTables,
        migratedRecords (dropEmptyLegacySchema f) name = migratedRecords f name :=
      fun name member => by simp [migratedRecords, empty name member, gone name member]
    simp only [durableTables, List.forall_mem_cons] at same
    simp only [content, same]

/-- A file is opened safely when a branch of the dispatch carries its rows over. -/
theorem carried_opens_safely (opens : initializeStorage f = createSchema g) (carries : Carries f g)
    (current : Current g) (raises : (createSchema g).2 ≠ none → Unchanged f g) : OpensSafely f := by
  have grown : Extends g (createSchema g).1 := create_schema_extends
  have carried := carries_extends carries grown
  have current' := create_schema_current current
  constructor
  · intro e raised name t present
    rw [opens] at raised ⊢
    exact grown.tables name t (raises (by simp [raised]) name t present)
  · intro _
    rw [opens]
    exact carried.kept
  · intro _ decode runId
    rw [opens, carried.content]
    exact id
  · intro done
    rw [opens] at done ⊢
    rw [current_opens current']
    exact create_schema_again done

theorem raised_opens_safely {e : StartupError} (raises : initializeStorage f = (f, some e)) :
    OpensSafely f := by
  constructor
  · intro e' _ name t present
    rwa [raises]
  all_goals
    intro done
    simp [raises] at done

theorem migrated_opens_safely {t : Table} (known : KnownColumns f)
    (present : f.tables "workflows" = some t) (defined : "definition_json" ∈ t.columns) :
    OpensSafely f := by
  have opens : initializeStorage f = match migrateV3ToV4 f with
      | (f, some e) => (f, some (.sql e))
      | (f, none) => createSchema f := by
    simp only [initializeStorage, present, if_neg (not_not.mpr defined)]
  cases ran : migrateV3ToV4 f with
  | mk g error =>
    cases error with
    | some e =>
      have undone : g = f := by
        rw [← atomically_error (f := f) (by rw [← migrateV3ToV4, ran]; simp), ← migrateV3ToV4, ran]
      subst undone
      exact raised_opens_safely (by rw [opens, ran])
    | none =>
      have migrated := migrate_ok (f := f) (by rw [ran])
      rw [ran] at migrated
      exact carried_opens_safely (by rw [opens, ran]) (migrated_carries migrated)
        (migrated_current migrated) (absurd (migrated_done migrated known))

/-- Where a repair leaves the steps alone, it leaves every table alone. -/
theorem repaired_opens_safely (known : KnownColumns f) (absent : f.tables "workflows" = none) :
    OpensSafely f := by
  have opens : initializeStorage f = match repairV4ForeignKeys f with
      | (f, some e) => (f, some (.sql e))
      | (f, none) => createSchema f := by
    simp only [initializeStorage, absent]
  cases ran : repairV4ForeignKeys f with
  | mk g error =>
    cases error with
    | some e =>
      have undone : g = f := by
        rw [← repair_error (f := f) (by rw [ran]; simp), ran]
      subst undone
      exact raised_opens_safely (by rw [opens, ran])
    | none =>
      obtain ⟨m, steps, leases⟩ := repair_ok (f := f) (by rw [ran])
      rw [ran] at leases
      have current := repaired_current absent steps leases
      have columns : ∀ t, m.tables "workflow_run_leases" = some t →
          t.columns = workflowRunLeasesSchema.columns := by
        intro t present
        rcases steps.tables with same | ⟨_, _, _, rebuilt⟩
        · exact known.leases t (same ▸ present)
        · exact known.leases t (by simpa [rebuilt] using present)
      have kept := repaired_leases columns leases
      rcases steps.tables with same | ⟨old, present, -, rebuilt⟩
      · have same : g.tables = f.tables := kept.trans same
        exact carried_opens_safely (by rw [opens, ran]) (repaired_carries known (.inl same)) current
          fun _ name t there => by rwa [same]
      · have rebuilt := kept.trans rebuilt
        refine carried_opens_safely (by rw [opens, ran])
          (repaired_carries known (.inr ⟨old, present, rebuilt⟩)) current (absurd ?_)
        apply create_schema_done
        · intro t there
          rw [rebuilt, Function.update_self] at there
          cases there
          rfl
        · intro t there
          rw [rebuilt, Function.update_of_ne (by decide)] at there
          exact known.events t there

theorem current_table_durable {name : String} {r : Record} (member : name ∈ durableTables) :
    (currentRecord name r).1 ∈ durableTables := by
  simp only [durableTables, List.mem_cons, List.not_mem_nil, or_false] at member
  rcases member with rfl | rfl | rfl | rfl | rfl | rfl | rfl | rfl
  all_goals simp [currentRecord, durableTables]

theorem discards_not_safe (discards : Discards f) : ¬ OpensSafely f := by
  obtain ⟨⟨workflows, present, legacy⟩, empty, name, member, rows⟩ := discards
  intro safe
  have noRows : workflows.rows = [] := by
    simpa [File.records, present, Table.records] using empty
  have opens : initializeStorage f = createSchema (dropEmptyLegacySchema f) := by
    simp [initializeStorage, present, legacy, noRows]
  have gone : ∀ name ∈ durableTables, (initializeStorage f).1.records name = [] := by
    intro name member
    rw [opens, create_schema_extends.records]
    simp [File.records, dropped_durable member]
  have done : (initializeStorage f).2 = none := opens ▸ dropped_done
  obtain ⟨r, inside⟩ := List.exists_mem_of_ne_nil _ rows
  rcases safe.kept done name member r inside with same | renamed
  · simp [gone name member] at same
  · simp [gone _ (current_table_durable member)] at renamed

/-- Opening a file loses rows exactly when it takes a schema for empty that is not. -/
theorem opens_safely_iff (known : PreDag f ∨ KnownColumns f) : OpensSafely f ↔ ¬ Discards f := by
  refine ⟨fun safe discards => discards_not_safe discards safe, fun keeps => ?_⟩
  cases present : f.tables "workflows" with
  | none =>
    rcases known with ⟨t, there, -⟩ | known
    · simp [present] at there
    · exact repaired_opens_safely known present
  | some workflows =>
    by_cases defined : "definition_json" ∈ workflows.columns
    · rcases known with ⟨t, there, legacy⟩ | known
      · rw [present] at there
        cases there
        exact absurd defined legacy
      · exact migrated_opens_safely known present defined
    · by_cases rows : workflows.rows = []
      · have empty : f.records "workflows" = [] := by
          simp [File.records, present, Table.records, rows]
        refine carried_opens_safely ?_ (dropped_carries fun name member => ?_) dropped_current
          (absurd dropped_done)
        · simp only [initializeStorage, present, if_pos defined, rows, ne_eq, not_true_eq_false,
            if_false]
        · by_contra inside
          exact keeps ⟨⟨workflows, present, defined⟩, empty, name, member, inside⟩
      · refine raised_opens_safely (e := .legacyDatabase
          "database uses the pre-DAG schema; back it up and remove .crashsafe/") ?_
        simp only [initializeStorage, present, if_pos defined, if_pos (show workflows.rows ≠ [] from rows)]

end Branches

section Examples

/- The request_json of a charge, and the definition_json of a run of nothing else. -/
def chargeRequestText : String := "\x7b\"amount_cents\":500,\"customer_id\":\"c1\"\x7d"

def chargeDefinitionText : String :=
  "\x7b\"name\":\"order\",\"steps\":[\x7b\"depends_on\":[],\"id\":\"charge\",\"operation\":\"charge\"," ++
    "\"operation_key\":\"run-1:charge\",\"position\":0,\"request\":" ++ chargeRequestText ++
    ",\"tool_key\":\"mock-tool\"\x7d]\x7d"

/-- A version 4 database that a pre-DAG release has opened since: it found no table `workflows`. -/
def reopenedByPreDag : File where
  tables := fun
    | "workflows" => some ⟨["id", "input_json"], []⟩
    | "workflow_runs" => some ⟨workflowRunsSchema.columns,
        [[.text "run-1", .text "order", .text "running", .text chargeDefinitionText,
          .text "2024-01-01T00:00:00+00:00", .text "2024-01-01T00:00:00+00:00", .null]]⟩
    | _ => none
  parents := fun _ => []
  indexes := []

/-- The run of a database that opens without an error is gone. -/
theorem reopened_run_discarded : PreDag reopenedByPreDag ∧
    (initializeStorage reopenedByPreDag).2 = none ∧
    (reopenedByPreDag.records "workflow_runs").length = 1 ∧
    (initializeStorage reopenedByPreDag).1.records "workflow_runs" = [] ∧
    ¬ OpensSafely reopenedByPreDag := by
  have legacy : PreDag reopenedByPreDag := ⟨_, rfl, by decide⟩
  refine ⟨legacy, by decide +kernel, by decide +kernel, by decide +kernel, ?_⟩
  exact discards_not_safe ⟨legacy, by decide +kernel, "workflow_runs", by decide, by decide +kernel⟩

/-- A version 3 database with one run, before its first step is claimed. -/
def versionThree : File where
  tables := fun
    | "workflows" => some ⟨"id" :: workflowRunsSchema.columns.tail,
        [[.text "run-1", .text "order", .text "running", .text chargeDefinitionText,
          .text "2024-01-01T00:00:00+00:00", .text "2024-01-01T00:00:00+00:00", .null]]⟩
    | "steps" => some ⟨legacyStepsColumns,
        [[.text "run-1", .text "charge", .integer 0, .text "charge", .text "pending", .text chargeRequestText,
          .text "run-1:charge", .text "mock-tool", .null, .integer 0, .null, .null,
          .text "2024-01-01T00:00:00+00:00", .text "2024-01-01T00:00:00+00:00", .null]]⟩
    | "step_dependencies" => some ⟨["workflow_id", "step_id", "dependency_step_id"], []⟩
    | "workflow_events" => some ⟨legacyEventsColumns,
        [[.integer 1, .text "run-1", .integer 1, .text "WorkflowCreated", .integer 3, .null, .null,
          .text chargeDefinitionText, .text "2024-01-01T00:00:00+00:00"]]⟩
    | "workflow_leases" => some ⟨"workflow_id" :: workflowRunLeasesSchema.columns.tail, []⟩
    | _ => none
  parents := fun
    | "steps" => ["workflows"]
    | "step_dependencies" => ["steps", "steps"]
    | "workflow_leases" => ["workflows"]
    | _ => []
  indexes := [("idx_steps_runnable", "steps"), ("idx_workflow_events_order", "workflow_events")]

theorem version_three_opens_safely : OpensSafely versionThree := by
  have known : KnownColumns versionThree := by
    constructor
    · rintro t ⟨⟩
      exact .inl rfl
    · rintro t ⟨⟩
      rfl
    · rintro t ⟨⟩
    · rintro t ⟨⟩
  have defined : ¬ PreDag versionThree := by
    rintro ⟨t, ⟨⟩, missing⟩
    exact missing (by decide)
  exact (opens_safely_iff (.inr known)).mpr fun discards => defined discards.1

end Examples

end Crashsafe
