import Mathlib
import Crashsafe.Library.Replay

/- A SQL database as named tables of rows, and the statements that change its schema. A table
   knows its columns by name and its rows by position. -/
namespace Tables
open Replay

inductive SqlValue where
  | null
  | integer (i : Int)
  | real (bits : UInt64)
  | text (s : String)
  | blob (bytes : List UInt8)
  deriving DecidableEq, Repr

structure Table where
  columns : List String
  rows : List (List SqlValue)

abbrev Record := List (String × SqlValue)

def Table.records (t : Table) : List Record := t.rows.map fun row => t.columns.zip row

/- `parents` are the tables that a table's foreign keys refer to; an index is listed with the
   table it is on. -/
structure File where
  tables : String → Option Table
  parents : String → List String
  indexes : List (String × String)

/-- What a table is created with. -/
structure Schema where
  columns : List String
  notNull : List String
  unique : List (List String)
  parents : List String

inductive SqlError where
  | noSuchTable (name : String)
  | tableExists (name : String)
  | noSuchColumn (name : String)
  | duplicateColumn (name : String)
  | columnCount
  | constraintFailed
  deriving DecidableEq, Repr

abbrev Statement := File → Except SqlError File

section Statements

def renamed (old new name : String) : String := if name = old then new else name

def dropTable (name : String) (f : File) : File where
  tables := Function.update f.tables name none
  parents := Function.update f.parents name []
  indexes := f.indexes.filter fun index => index.2 ≠ name

def dropIndex (name : String) (f : File) : File :=
  { f with indexes := f.indexes.filter fun index => index.1 ≠ name }

/-- `ALTER TABLE old RENAME TO new`. Unless `legacy` is set, foreign keys follow the name. -/
def renameTable (legacy : Bool) (old new : String) (f : File) : Except SqlError File :=
  match f.tables old with
  | none => .error (.noSuchTable old)
  | some t =>
    if (f.tables new).isSome then .error (.tableExists new)
    else
      let parents := Function.update (Function.update f.parents old []) new (f.parents old)
      .ok
        { tables := Function.update (Function.update f.tables old none) new (some t)
          parents := fun name => if legacy then parents name else (parents name).map (renamed old new)
          indexes := f.indexes.map fun index => (index.1, renamed old new index.2) }

def renameColumn (table old new : String) (f : File) : Except SqlError File :=
  match f.tables table with
  | none => .error (.noSuchTable table)
  | some t =>
    if old ∉ t.columns then .error (.noSuchColumn old)
    else if new ∈ t.columns then .error (.duplicateColumn new)
    else .ok
      { f with
        tables := Function.update f.tables table
          (some { t with columns := t.columns.map (renamed old new) }) }

def setColumn (column : String) (g : SqlValue → SqlValue) (t : Table) : Table :=
  { t with
    rows := t.rows.map fun row =>
      List.zipWith (fun name value => if name = column then g value else value) t.columns row }

/-- `UPDATE table SET column = g(column)`. -/
def updateColumn (table column : String) (g : SqlValue → SqlValue) (f : File) :
    Except SqlError File :=
  match f.tables table with
  | none => .error (.noSuchTable table)
  | some t =>
    if column ∉ t.columns then .error (.noSuchColumn column)
    else .ok { f with tables := Function.update f.tables table (some (setColumn column g t)) }

def createTable (name : String) (schema : Schema) (f : File) : Except SqlError File :=
  if (f.tables name).isSome then .error (.tableExists name)
  else .ok
    { f with
      tables := Function.update f.tables name (some ⟨schema.columns, []⟩)
      parents := Function.update f.parents name schema.parents }

/-- `CREATE TABLE IF NOT EXISTS`. -/
def createTableIfMissing (name : String) (schema : Schema) (f : File) : Except SqlError File :=
  if (f.tables name).isSome then .ok f else createTable name schema f

def valueOf (columns : List String) (row : List SqlValue) (column : String) : SqlValue :=
  ((columns.zip row).lookup column).getD .null

/- A NULL equals no other in a UNIQUE constraint. -/
def satisfies (schema : Schema) (rows : List (List SqlValue)) : Prop :=
  (∀ row ∈ rows, ∀ c ∈ schema.notNull, valueOf schema.columns row c ≠ .null) ∧
    ∀ key ∈ schema.unique,
      ((rows.map fun row => key.map (valueOf schema.columns row)).filter (.null ∉ ·)).Nodup

instance (schema : Schema) (rows : List (List SqlValue)) : Decidable (satisfies schema rows) :=
  inferInstanceAs (Decidable (_ ∧ _))

/-- `INSERT INTO target SELECT * FROM source` into a table just created. -/
def copyRows (target source : String) (schema : Schema) (f : File) : Except SqlError File :=
  match f.tables source with
  | none => .error (.noSuchTable source)
  | some t =>
    if t.columns.length ≠ schema.columns.length then .error .columnCount
    else if ¬ satisfies schema t.rows then .error .constraintFailed
    else .ok { f with tables := Function.update f.tables target (some ⟨schema.columns, t.rows⟩) }

/-- `CREATE INDEX IF NOT EXISTS`. -/
def createIndexIfMissing (index table : String) (columns : List String) (f : File) :
    Except SqlError File :=
  if index ∈ f.indexes.map Prod.fst then .ok f
  else
    match f.tables table with
    | none => .error (.noSuchTable table)
    | some t =>
      if ∀ c ∈ columns, c ∈ t.columns then .ok { f with indexes := f.indexes ++ [(index, table)] }
      else .error (.noSuchColumn table)

/-- Statements outside a transaction: those before the first error stay done. -/
def runScript : List Statement → File → File × Option SqlError
  | [], f => (f, none)
  | statement :: rest, f =>
    match statement f with
    | .error e => (f, some e)
    | .ok g => runScript rest g

/-- Statements inside a transaction: an error undoes them all. -/
def atomically (statements : List Statement) (f : File) : File × Option SqlError :=
  match replay (fun f statement => statement f) f statements with
  | .error e => (f, some e)
  | .ok g => (g, none)

/-- The steps that change what a table refers to: move it away, create it again, copy, drop. -/
def rebuildTable (name aside : String) (schema : Schema) : List Statement :=
  [renameTable true name aside, createTable name schema, copyRows name aside schema,
    fun f => .ok (dropTable aside f)]

/-- The rows of a table under the names of its columns; none when it does not exist. -/
def File.records (f : File) (name : String) : List Record :=
  match f.tables name with
  | none => []
  | some t => t.records

end Statements

section Outcomes
variable {f g : File} {old new table column name : String} {legacy : Bool}

theorem rename_table_ok (h : renameTable legacy old new f = .ok g) :
    ∃ t, f.tables old = some t ∧ f.tables new = none ∧
      g.tables = Function.update (Function.update f.tables old none) new (some t) ∧
      ∀ name, g.parents name =
        if legacy then Function.update (Function.update f.parents old []) new (f.parents old) name
        else (Function.update (Function.update f.parents old []) new (f.parents old) name).map
          (renamed old new) := by
  unfold renameTable at h
  split at h
  · cases h
  rename_i t present
  split at h
  · cases h
  rename_i absent
  cases h
  exact ⟨t, present, by simpa using absent, rfl, fun _ => rfl⟩

theorem rename_column_ok (h : renameColumn table old new f = .ok g) :
    ∃ t, f.tables table = some t ∧ old ∈ t.columns ∧ new ∉ t.columns ∧ g.parents = f.parents ∧
      g.tables = Function.update f.tables table
        (some { t with columns := t.columns.map (renamed old new) }) := by
  unfold renameColumn at h
  split at h
  · cases h
  rename_i t present
  split at h
  · cases h
  rename_i there
  split at h
  · cases h
  rename_i fresh
  cases h
  exact ⟨t, present, by simpa using there, fresh, rfl, rfl⟩

theorem update_column_ok {set : SqlValue → SqlValue} (h : updateColumn table column set f = .ok g) :
    ∃ t, f.tables table = some t ∧ g.parents = f.parents ∧
      g.tables = Function.update f.tables table (some (setColumn column set t)) := by
  unfold updateColumn at h
  split at h
  · cases h
  rename_i t present
  split at h
  · cases h
  cases h
  exact ⟨t, present, rfl, rfl⟩

theorem create_index_ok (index : String) {columns : List String} {t : Table}
    (present : f.tables table = some t) (columned : ∀ c ∈ columns, c ∈ t.columns) :
    ∃ g, createIndexIfMissing index table columns f = .ok g ∧ g.tables = f.tables ∧
      g.parents = f.parents := by
  unfold createIndexIfMissing
  split
  · exact ⟨f, rfl, rfl, rfl⟩
  · simp only [present, if_pos columned]
    exact ⟨_, rfl, rfl, rfl⟩

/-- A rebuilt table has its rows under the columns it was created with. -/
theorem rebuild_table_ok {aside : String} {schema : Schema} (apart : name ≠ aside)
    (ran : replay (fun f statement => statement f) f (rebuildTable name aside schema) = .ok g) :
    ∃ t, f.tables name = some t ∧ f.tables aside = none ∧
      t.columns.length = schema.columns.length ∧
      g.tables = Function.update f.tables name (some ⟨schema.columns, t.rows⟩) ∧
      ∀ other, other ≠ aside →
        g.parents other = if other = name then schema.parents else f.parents other := by
  obtain ⟨moved, move, ran⟩ := replay_cons_ok.mp ran
  obtain ⟨fresh, create, ran⟩ := replay_cons_ok.mp ran
  obtain ⟨copied, copy, ran⟩ := replay_cons_ok.mp ran
  obtain ⟨dropped, drop, ran⟩ := replay_cons_ok.mp ran
  cases ran
  cases drop
  obtain ⟨t, present, free, movedTables, movedParents⟩ := rename_table_ok move
  unfold createTable at create
  split at create
  · cases create
  cases create
  unfold copyRows at copy
  have there : (Function.update moved.tables name (some ⟨schema.columns, []⟩)) aside = some t := by
    simp [movedTables, Function.update_of_ne apart.symm]
  simp only [there] at copy
  split at copy
  · cases copy
  rename_i width
  split at copy
  · cases copy
  cases copy
  refine ⟨t, present, free, not_not.mp width, ?_, ?_⟩
  · funext other
    by_cases first : other = name
    · simp [dropTable, first, Function.update_of_ne apart]
    by_cases second : other = aside
    · simp [dropTable, second, Function.update_of_ne apart.symm, free]
    · simp [dropTable, movedTables, Function.update_of_ne, first, second]
  · intro other differs
    by_cases first : other = name
    · simp [dropTable, first, Function.update_of_ne apart]
    · simp [dropTable, movedParents, Function.update_of_ne, first, differs]

theorem atomically_ok {statements : List Statement} (done : (atomically statements f).2 = none) :
    replay (fun f statement => statement f) f statements = .ok (atomically statements f).1 := by
  unfold atomically at done ⊢
  split at done
  · cases done
  · rename_i g ran
    simp only [ran]

theorem atomically_error {statements : List Statement} (failed : (atomically statements f).2 ≠ none) :
    (atomically statements f).1 = f := by
  unfold atomically at failed ⊢
  split at failed
  · rfl
  · exact absurd rfl failed

/-- Foreign keys that follow a renamed table name it no more. -/
theorem rename_table_away (moved : renameTable false old new f = .ok g) (differs : old ≠ new) :
    old ∉ g.parents name := by
  obtain ⟨_, _, _, _, parents⟩ := rename_table_ok moved
  rw [parents name, if_neg (by simp)]
  intro member
  obtain ⟨parent, _, same⟩ := List.mem_map.mp member
  unfold renamed at same
  split at same
  · exact differs same.symm
  · rename_i other
    exact other same

theorem rename_table_parents {third : String} (moved : renameTable false old new f = .ok g)
    (fresh : third ≠ new) (absent : ∀ name, third ∉ f.parents name) : third ∉ g.parents name := by
  obtain ⟨_, _, _, _, parents⟩ := rename_table_ok moved
  rw [parents name, if_neg (by simp)]
  intro member
  obtain ⟨parent, inside, same⟩ := List.mem_map.mp member
  have outside : parent ≠ third := by
    rintro rfl
    simp only [Function.update_apply] at inside
    split at inside
    · exact absent old inside
    · split at inside
      · cases inside
      · exact absent name inside
  unfold renamed at same
  split at same
  · exact fresh same.symm
  · exact outside same

theorem drop_tables (names : List String) :
    (names.foldl (fun f name => dropTable name f) f).tables name =
      if name ∈ names then none else f.tables name := by
  induction names generalizing f with
  | nil => simp
  | cons first rest ih =>
    rw [List.foldl_cons, ih]
    by_cases later : name ∈ rest
    · simp [later]
    · by_cases same : name = first <;> simp [later, same, dropTable]

end Outcomes

section Records
variable {t : Table}

def renameKey (old new : String) (r : Record) : Record := r.map (Prod.map (renamed old new) id)

def setValue (column : String) (g : SqlValue → SqlValue) (r : Record) : Record :=
  r.map fun field => (field.1, if field.1 = column then g field.2 else field.2)

theorem rename_records (old new : String) :
    Table.records { t with columns := t.columns.map (renamed old new) } =
      t.records.map (renameKey old new) := by
  simp only [Table.records, List.map_map]
  apply List.map_congr_left
  intro row _
  simp only [Function.comp, renameKey]
  rw [List.zip_map_left]

theorem zip_set (column : String) (g : SqlValue → SqlValue) (columns : List String)
    (row : List SqlValue) :
    columns.zip (List.zipWith (fun name value => if name = column then g value else value) columns row) =
      setValue column g (columns.zip row) := by
  induction columns generalizing row with
  | nil => rfl
  | cons name rest ih =>
    cases row with
    | nil => rfl
    | cons value row => simpa [setValue] using ih row

theorem set_records (column : String) (g : SqlValue → SqlValue) :
    (setColumn column g t).records = t.records.map (setValue column g) := by
  simp only [Table.records, setColumn, List.map_map]
  exact List.map_congr_left fun row _ => zip_set column g t.columns row

/-- A column renamed away can be renamed again without any effect. -/
theorem rename_key_again {old new : String} (differs : old ≠ new) (r : Record) :
    renameKey old new (renameKey old new r) = renameKey old new r := by
  simp only [renameKey, List.map_map]
  apply List.map_congr_left
  intro field _
  simp only [Function.comp, Prod.map, renamed, id]
  split <;> simp_all [Ne.symm differs]

end Records

section Scripts
variable {f g h : File}

/- A file with everything that another has, and no more rows. -/
structure Extends (f g : File) : Prop where
  tables : ∀ name t, f.tables name = some t → g.tables name = some t
  records : ∀ name, g.records name = f.records name
  parents : ∀ name t, f.tables name = some t → g.parents name = f.parents name
  indexes : ∀ index ∈ f.indexes.map Prod.fst, index ∈ g.indexes.map Prod.fst

theorem extends_refl : Extends f f := ⟨fun _ _ => id, fun _ => rfl, fun _ _ _ => rfl, fun _ => id⟩

theorem extends_trans (first : Extends f g) (second : Extends g h) : Extends f h where
  tables name t present := second.tables name t (first.tables name t present)
  records name := (second.records name).trans (first.records name)
  parents name t present := (second.parents name t (first.tables name t present)).trans
    (first.parents name t present)
  indexes index member := second.indexes index (first.indexes index member)

/-- A statement that only adds, and adds nothing the second time. -/
def Additive (statement : Statement) : Prop :=
  ∀ f g, statement f = .ok g → Extends f g ∧ ∀ h, Extends g h → statement h = .ok h

/-- What `CREATE TABLE IF NOT EXISTS` leaves: the table that was there, or an empty one. -/
theorem create_missing_ok (name : String) (schema : Schema) (f : File) :
    ∃ g, createTableIfMissing name schema f = .ok g ∧ Extends f g ∧
      g.tables = Function.update f.tables name (some ((f.tables name).getD ⟨schema.columns, []⟩)) ∧
      ∀ other, g.parents other =
        if other = name ∧ f.tables name = none then schema.parents else f.parents other := by
  unfold createTableIfMissing createTable
  cases present : f.tables name with
  | some t =>
    refine ⟨f, by simp, extends_refl, ?_, by simp⟩
    rw [Option.getD_some, ← present, Function.update_eq_self]
  | none =>
    rw [if_neg (by simp), if_neg (by simp)]
    refine ⟨_, rfl, ⟨fun other t there => ?_, fun other => ?_, fun other t there => ?_, fun _ => id⟩,
      rfl, fun other => ?_⟩
    · have differs : other ≠ name := by
        rintro rfl
        simp [present] at there
      simpa [Function.update_of_ne differs] using there
    · by_cases same : other = name
      · subst same
        simp [File.records, Table.records, present]
      · simp [File.records, Function.update_of_ne same]
    · have differs : other ≠ name := by
        rintro rfl
        simp [present] at there
      simp [Function.update_of_ne differs]
    · simp [Function.update_apply]

theorem create_table_additive (name : String) (schema : Schema) :
    Additive (createTableIfMissing name schema) := by
  intro f g created
  obtain ⟨g', created', grown, tables, _⟩ := create_missing_ok name schema f
  obtain rfl : g' = g := by
    rw [created] at created'
    exact (Except.ok.inj created').symm
  refine ⟨grown, fun h larger => ?_⟩
  have present := larger.tables name _ (congrFun tables name |>.trans (Function.update_self ..))
  simp [createTableIfMissing, present]

theorem create_index_kept {index table : String} {columns : List String}
    (created : createIndexIfMissing index table columns f = .ok g) :
    g.tables = f.tables ∧ g.parents = f.parents ∧ index ∈ g.indexes.map Prod.fst ∧
      ∀ other ∈ f.indexes.map Prod.fst, other ∈ g.indexes.map Prod.fst := by
  unfold createIndexIfMissing at created
  split at created
  · rename_i present
    cases created
    exact ⟨rfl, rfl, present, fun _ => id⟩
  split at created
  · cases created
  split at created
  · cases created
    refine ⟨rfl, rfl, by simp, fun other member => ?_⟩
    simp only [List.map_append, List.mem_append]
    exact .inl member
  · cases created

theorem create_index_additive (index table : String) (columns : List String) :
    Additive (createIndexIfMissing index table columns) := by
  intro f g created
  obtain ⟨tables, parents, listed, indexes⟩ := create_index_kept created
  have records : ∀ name, g.records name = f.records name := fun name => by
    simp only [File.records, tables]
  refine ⟨⟨fun _ _ => by simp [tables], records, fun _ _ _ => by rw [parents], indexes⟩,
    fun h larger => ?_⟩
  simp only [createIndexIfMissing]
  exact if_pos (larger.indexes index listed)

theorem run_script_extends {script : List Statement}
    (additive : ∀ s ∈ script, Additive s) (f : File) : Extends f (runScript script f).1 := by
  induction script generalizing f with
  | nil => exact extends_refl
  | cons statement rest ih =>
    simp only [runScript]
    split
    · exact extends_refl
    · rename_i g taken
      exact extends_trans (additive statement (by simp) f g taken).1
        (ih (fun s member => additive s (List.mem_cons_of_mem _ member)) g)

theorem run_script_invariant {P : File → Prop} {script : List Statement}
    (kept : ∀ s ∈ script, ∀ f g, s f = .ok g → P f → P g) (start : P f) :
    P (runScript script f).1 := by
  induction script generalizing f with
  | nil => exact start
  | cons statement rest ih =>
    simp only [runScript]
    split
    · exact start
    · rename_i g taken
      exact ih (fun s member => kept s (List.mem_cons_of_mem _ member))
        (kept statement (by simp) f g taken start)

/-- A script of additive statements that has run through changes nothing the next time. -/
theorem run_script_again {script : List Statement}
    (additive : ∀ s ∈ script, Additive s) {f : File} (done : (runScript script f).2 = none) :
    ∀ s ∈ script, ∀ h, Extends (runScript script f).1 h → s h = .ok h := by
  induction script generalizing f with
  | nil => simp
  | cons statement rest ih =>
    simp only [runScript] at done ⊢
    split at done
    · cases done
    · rename_i g taken
      have tail : ∀ s ∈ rest, Additive s := fun s member => additive s (List.mem_cons_of_mem _ member)
      intro s member h larger
      rcases List.mem_cons.mp member with rfl | later
      · exact (additive s (by simp) f g taken).2 h
          (extends_trans (run_script_extends tail g) larger)
      · exact ih tail done s later h larger

theorem run_script_idle {script : List Statement}
    (idle : ∀ s ∈ script, s f = .ok f) : runScript script f = (f, none) := by
  induction script with
  | nil => rfl
  | cons statement rest ih =>
    simp only [runScript, idle statement (by simp)]
    exact ih fun s member => idle s (List.mem_cons_of_mem _ member)

end Scripts

end Tables
