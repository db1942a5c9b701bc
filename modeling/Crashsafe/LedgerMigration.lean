import Crashsafe.MockTool

/- Opening the tool's ledger. ToolStore.__init__ renames the files of a legacy tools.db before
   SQLite opens ledger.db, and the process may crash at any point and start again. -/
namespace Crashsafe
open Execution

def ToolStore.empty : ToolStore := ⟨[], []⟩

def ToolStore.append (store log : ToolStore) : ToolStore :=
  ⟨store.idempotencyResults ++ log.idempotencyResults, store.sideEffects ++ log.sideEffects⟩

/- The rows that each file of the directory holds: a main file, or a -wal file. -/
abbrev Directory := String → Option ToolStore

def Directory.replace (files : Directory) (source target : String) : Directory :=
  Function.update (Function.update files target (files source)) source none

/-- SQLite reads a main file together with the -wal file of the same name. -/
def Directory.committed (files : Directory) (name : String) : ToolStore :=
  match files name with
  | none => .empty
  | some rows => rows.append ((files (name ++ "-wal")).getD .empty)

/- The last connection to close moves the log into the main file and deletes its sidecars. -/
def Directory.checkpoint (files : Directory) (name : String) : Directory :=
  Function.update (Function.update (Function.update files
    name (some (files.committed name))) (name ++ "-wal") none) (name ++ "-shm") none

/- Where `__init__` stands; `replacing` is past the test that the source exists. -/
inductive BootPc where
  | down
  | testing
  | seeking
  | moving (suffixes : List String)
  | replacing (suffix : String) (rest : List String)
  | initializing
  | opened
  deriving DecidableEq, Repr

structure Boot where
  files : Directory
  pc : BootPc

inductive BootAction where
  | start
  | advance
  | checkpoint
  | crash
  deriving DecidableEq, Repr

/-- One file operation of `__init__`, or a crash. -/
def bootStep (name : String) (s : Boot) : BootAction → Option Boot
  | .start =>
    match s.pc with
    | .down => some { s with pc := .testing }
    | _ => none
  | .advance =>
    match s.pc with
    | .testing =>
      if name ≠ "ledger.db" ∨ (s.files name).isSome then some { s with pc := .initializing }
      else some { s with pc := .seeking }
    | .seeking =>
      if (s.files "tools.db").isSome then some { s with pc := .moving ["", "-wal", "-shm"] }
      else some { s with pc := .initializing }
    | .moving [] => some { s with pc := .initializing }
    | .moving (suffix :: rest) =>
      if (s.files ("tools.db" ++ suffix)).isSome then some { s with pc := .replacing suffix rest }
      else some { s with pc := .moving rest }
    | .replacing suffix rest =>
      some ⟨s.files.replace ("tools.db" ++ suffix) (name ++ suffix), .moving rest⟩
    | .initializing => some ⟨s.files.checkpoint name, .opened⟩
    | _ => none
  | .checkpoint =>
    match s.pc with
    | .initializing => some { s with files := s.files.checkpoint name }
    | _ => none
  | .crash => some { s with pc := .down }

/-- Every row of `store` is also in `ledger`. -/
structure ToolStore.Within (store ledger : ToolStore) : Prop where
  results : ∀ row ∈ store.idempotencyResults, row ∈ ledger.idempotencyResults
  effects : ∀ e ∈ store.sideEffects, e ∈ ledger.sideEffects

/-- The ledger has the rows committed before, and none of their keys takes effect again. -/
structure KeepsLedger (committed ledger : ToolStore) : Prop where
  rows : committed.Within ledger
  once : ∀ codec operation operationKey request hex now store result,
    operationKey ∈ committed.idempotencyResults.map (·.operationKey) ∨
      operationKey ∈ committed.sideEffects.map (·.operationKey) →
    ledger.apply codec operation operationKey request hex now ≠ .ok (store, result, true)

/-- A ledger under its legacy name, with nothing under the new one. -/
structure LegacyOnly (files : Directory) : Prop where
  legacy : (files "tools.db").isSome
  ledger : files "ledger.db" = none
  ledgerLog : files "ledger.db-wal" = none

/-- The legacy log still holds rows that the ledger of the new name lacks. -/
def Stranded (files : Directory) : Prop :=
  (files "ledger.db").isSome ∧ ∃ log, files "tools.db-wal" = some log ∧
    ¬ log.Within (files.committed "ledger.db")

/-- No crash leaves rows stranded. -/
def noTornCrash (s : Boot) (a : BootAction) : Prop :=
  a = .crash → ¬ Stranded s.files

section Store
variable {store log ledger : ToolStore}

theorem within_append : (store.append log).Within ledger ↔ store.Within ledger ∧ log.Within ledger := by
  constructor
  · intro ⟨results, effects⟩
    simp only [ToolStore.append, List.mem_append] at results effects
    exact ⟨⟨fun r h => results r (.inl h), fun e h => effects e (.inl h)⟩,
      ⟨fun r h => results r (.inr h), fun e h => effects e (.inr h)⟩⟩
  · intro ⟨first, second⟩
    refine ⟨fun row member => ?_, fun e member => ?_⟩
    · rcases List.mem_append.mp member with old | new
      · exact first.results row old
      · exact second.results row new
    · rcases List.mem_append.mp member with old | new
      · exact first.effects e old
      · exact second.effects e new

theorem within_refl : store.Within store := ⟨fun _ h => h, fun _ h => h⟩

theorem empty_within : ToolStore.empty.Within ledger :=
  ⟨by simp [ToolStore.empty], by simp [ToolStore.empty]⟩

@[simp] theorem append_empty : store.append .empty = store := by
  simp [ToolStore.append, ToolStore.empty]

/-- A key with a row in the ledger takes no effect. -/
theorem within_once (within : store.Within ledger) : KeepsLedger store ledger := by
  refine ⟨within, fun codec operation operationKey request hex now store' result known applied => ?_⟩
  unfold ToolStore.apply at applied
  split at applied
  · cases applied
  · cases applied
  · rename_i missed
    dsimp only at applied
    split at applied
    · cases applied
    · rename_i fresh
      rcases known with known | known
      · obtain ⟨row, member, key⟩ := List.mem_map.mp known
        unfold ToolStore.lookup at missed
        split at missed
        · rename_i none
          have none := List.find?_eq_none.mp none row (within.results row member)
          simp [key] at none
        · split at missed <;> cases missed
      · obtain ⟨e, member, key⟩ := List.mem_map.mp known
        exact fresh ⟨e, within.effects e member, .inr key⟩

end Store

/-- The migration is under way or was never torn. -/
inductive Intact (main : ToolStore) (log : Option ToolStore) (s : Boot) : Prop where
  | untouched (ledger : s.files "ledger.db" = none) (ledgerLog : s.files "ledger.db-wal" = none)
      (legacy : s.files "tools.db" = some main) (legacyLog : s.files "tools.db-wal" = log)
      (pc : s.pc = .down ∨ s.pc = .testing ∨ s.pc = .seeking ∨ s.pc = .moving ["", "-wal", "-shm"] ∨
        s.pc = .replacing "" ["-wal", "-shm"])
  | halfway (ledger : s.files "ledger.db" = some main) (ledgerLog : s.files "ledger.db-wal" = none)
      (legacyLog : s.files "tools.db-wal" = log)
      (pc : s.pc = .moving ["-wal", "-shm"] ∨ s.pc = .replacing "-wal" ["-shm"])
  | moved (ledger : (s.files "ledger.db").isSome) (legacyLog : s.files "tools.db-wal" = none)
      (rows : s.files.committed "ledger.db" = main.append (log.getD .empty))
      (pc : s.pc = .moving ["-shm"] ∨ s.pc = .replacing "-shm" [] ∨ s.pc = .moving [] ∨
        s.pc = .initializing ∨ s.pc = .opened ∨ s.pc = .down ∨ s.pc = .testing)

/-- A crash came between the main file and its log. -/
structure Torn (main : ToolStore) (log : Option ToolStore) (s : Boot) : Prop where
  ledger : (s.files "ledger.db").isSome
  legacyLog : s.files "tools.db-wal" = log
  rows : s.files.committed "ledger.db" = main
  pc : s.pc = .down ∨ s.pc = .testing ∨ s.pc = .initializing ∨ s.pc = .opened

section Boot
variable {main : ToolStore} {log : Option ToolStore} {s t : Boot} {a : BootAction}

@[simp] theorem checkpoint_ledger (files : Directory) :
    files.checkpoint "ledger.db" "ledger.db" = some (files.committed "ledger.db") := by
  simp [Directory.checkpoint, Function.update]

@[simp] theorem checkpoint_legacy_log (files : Directory) :
    files.checkpoint "ledger.db" "tools.db-wal" = files "tools.db-wal" := by
  simp [Directory.checkpoint, Function.update]

@[simp] theorem committed_checkpoint (files : Directory) :
    (files.checkpoint "ledger.db").committed "ledger.db" = files.committed "ledger.db" := by
  simp [Directory.committed, Directory.checkpoint, Function.update]

/-- A start that finds a ledger opens it as it is. -/
theorem torn_step (torn : Torn main log s) (taken : bootStep "ledger.db" s a = some t) :
    Torn main log t := by
  obtain ⟨ledger, legacyLog, rows, pc⟩ := torn
  cases a with
  | crash =>
    cases taken
    exact ⟨ledger, legacyLog, rows, .inl rfl⟩
  | start =>
    rcases pc with pc | pc | pc | pc <;> simp only [bootStep, pc] at taken <;> cases taken
    exact ⟨ledger, legacyLog, rows, .inr (.inl rfl)⟩
  | advance =>
    rcases pc with pc | pc | pc | pc <;> simp only [bootStep, pc] at taken
    · cases taken
    · simp only [ledger, or_true, ↓reduceIte, Option.some.injEq] at taken
      subst taken
      exact ⟨ledger, legacyLog, rows, .inr (.inr (.inl rfl))⟩
    · cases taken
      exact ⟨by simp, by simpa using legacyLog, by simpa using rows, .inr (.inr (.inr rfl))⟩
    · cases taken
  | checkpoint =>
    rcases pc with pc | pc | pc | pc <;> simp only [bootStep, pc] at taken <;> cases taken
    exact ⟨by simp, by simpa using legacyLog, by simpa using rows, .inr (.inr (.inl rfl))⟩

theorem untouched_step (ledger : s.files "ledger.db" = none)
    (ledgerLog : s.files "ledger.db-wal" = none) (legacy : s.files "tools.db" = some main)
    (legacyLog : s.files "tools.db-wal" = log)
    (pc : s.pc = .down ∨ s.pc = .testing ∨ s.pc = .seeking ∨ s.pc = .moving ["", "-wal", "-shm"] ∨
      s.pc = .replacing "" ["-wal", "-shm"])
    (taken : bootStep "ledger.db" s a = some t) : Intact main log t := by
  cases a with
  | crash =>
    cases taken
    exact .untouched ledger ledgerLog legacy legacyLog (.inl rfl)
  | start =>
    rcases pc with pc | pc | pc | pc | pc <;> simp only [bootStep, pc] at taken <;> cases taken
    exact .untouched ledger ledgerLog legacy legacyLog (.inr (.inl rfl))
  | checkpoint => rcases pc with pc | pc | pc | pc | pc <;> simp [bootStep, pc] at taken
  | advance =>
    rcases pc with pc | pc | pc | pc | pc <;> simp only [bootStep, pc] at taken
    · cases taken
    · simp only [ledger, ne_eq, not_true_eq_false, Option.isSome_none, Bool.false_eq_true, or_self,
        ↓reduceIte, Option.some.injEq] at taken
      subst taken
      exact .untouched ledger ledgerLog legacy legacyLog (.inr (.inr (.inl rfl)))
    · simp only [legacy, Option.isSome_some, ↓reduceIte, Option.some.injEq] at taken
      subst taken
      exact .untouched ledger ledgerLog legacy legacyLog (.inr (.inr (.inr (.inl rfl))))
    · simp only [String.append_empty, legacy, Option.isSome_some, ↓reduceIte, Option.some.injEq] at taken
      subst taken
      exact .untouched ledger ledgerLog legacy legacyLog (.inr (.inr (.inr (.inr rfl))))
    · cases taken
      refine .halfway ?_ ?_ ?_ (.inl rfl)
      · simp [Directory.replace, legacy]
      · simp [Directory.replace, Function.update, ledgerLog]
      · simp [Directory.replace, Function.update, legacyLog]

theorem halfway_step (ledger : s.files "ledger.db" = some main)
    (ledgerLog : s.files "ledger.db-wal" = none) (legacyLog : s.files "tools.db-wal" = log)
    (pc : s.pc = .moving ["-wal", "-shm"] ∨ s.pc = .replacing "-wal" ["-shm"])
    (taken : bootStep "ledger.db" s a = some t) :
    Intact main log t ∨ (a = .crash ∧ Torn main log t) := by
  have rows : s.files.committed "ledger.db" = main := by
    simp [Directory.committed, ledger, ledgerLog]
  cases a with
  | crash =>
    cases taken
    exact .inr ⟨rfl, by simp [ledger], legacyLog, rows, .inl rfl⟩
  | start => rcases pc with pc | pc <;> simp [bootStep, pc] at taken
  | checkpoint => rcases pc with pc | pc <;> simp [bootStep, pc] at taken
  | advance =>
    rcases pc with pc | pc <;> simp only [bootStep, pc] at taken
    · simp only [String.reduceAppend, legacyLog] at taken
      cases log with
      | none =>
        cases taken
        exact .inl (.moved (by simp [ledger]) legacyLog (by simpa using rows) (.inl rfl))
      | some log =>
        cases taken
        exact .inl (.halfway ledger ledgerLog legacyLog (.inr rfl))
    · cases taken
      refine .inl (.moved ?_ ?_ ?_ (.inl rfl))
      · simp [Directory.replace, Function.update, ledger]
      · simp [Directory.replace]
      · simp [Directory.committed, Directory.replace, Function.update, ledger, legacyLog]

theorem moved_step (ledger : (s.files "ledger.db").isSome)
    (legacyLog : s.files "tools.db-wal" = none)
    (rows : s.files.committed "ledger.db" = main.append (log.getD .empty))
    (pc : s.pc = .moving ["-shm"] ∨ s.pc = .replacing "-shm" [] ∨ s.pc = .moving [] ∨
      s.pc = .initializing ∨ s.pc = .opened ∨ s.pc = .down ∨ s.pc = .testing)
    (taken : bootStep "ledger.db" s a = some t) : Intact main log t := by
  cases a with
  | crash =>
    cases taken
    exact .moved ledger legacyLog rows (by simp)
  | start =>
    rcases pc with pc | pc | pc | pc | pc | pc | pc <;> simp only [bootStep, pc] at taken <;> cases taken
    exact .moved ledger legacyLog rows (by simp)
  | checkpoint =>
    rcases pc with pc | pc | pc | pc | pc | pc | pc <;> simp only [bootStep, pc] at taken <;> cases taken
    exact .moved (by simp) (by simpa using legacyLog) (by simpa using rows) (by simp)
  | advance =>
    rcases pc with pc | pc | pc | pc | pc | pc | pc <;> simp only [bootStep, pc] at taken
    · simp only [String.reduceAppend] at taken
      split at taken <;> cases taken <;> exact .moved ledger legacyLog rows (by simp)
    · cases taken
      refine .moved ?_ ?_ ?_ (by simp)
      · simpa [Directory.replace, Function.update] using ledger
      · simpa [Directory.replace, Function.update] using legacyLog
      · rw [← rows]
        simp [Directory.committed, Directory.replace, Function.update]
    · cases taken
      exact .moved ledger legacyLog rows (by simp)
    · cases taken
      exact .moved (by simp) (by simpa using legacyLog) (by simpa using rows) (by simp)
    · cases taken
    · cases taken
    · simp only [ledger, or_true, ↓reduceIte, Option.some.injEq] at taken
      subst taken
      exact .moved ledger legacyLog rows (by simp)

theorem intact_step (intact : Intact main log s) (taken : bootStep "ledger.db" s a = some t) :
    Intact main log t ∨ (a = .crash ∧ Torn main log t) := by
  cases intact with
  | untouched ledger ledgerLog legacy legacyLog pc =>
    exact .inl (untouched_step ledger ledgerLog legacy legacyLog pc taken)
  | halfway ledger ledgerLog legacyLog pc => exact halfway_step ledger ledgerLog legacyLog pc taken
  | moved ledger legacyLog rows pc => exact .inl (moved_step ledger legacyLog rows pc taken)

/-- Rows stranded while nobody is at the migration stay so. -/
def Lost (s : Boot) : Prop :=
  Stranded s.files ∧ (s.pc = .down ∨ s.pc = .testing ∨ s.pc = .initializing ∨ s.pc = .opened)

theorem torn_lost_iff (torn : Torn main log s) : Lost s ↔ ¬ (log.getD .empty).Within main := by
  obtain ⟨ledger, legacyLog, rows, pc⟩ := torn
  simp only [Lost, Stranded, ledger, legacyLog, rows, pc, and_true, true_and]
  cases log with
  | none => simp [empty_within]
  | some log => simp

theorem intact_kept (intact : Intact main log s) : ¬ Lost s := by
  rintro ⟨⟨ledger, log', legacyLog, _⟩, rest⟩
  cases intact with
  | untouched none => simp [none] at ledger
  | halfway _ _ _ pc => rcases pc with pc | pc <;> simp [pc] at rest
  | moved _ none => simp [none] at legacyLog

def Booting (main : ToolStore) (log : Option ToolStore) (s : Boot) : Prop :=
  Intact main log s ∨ Torn main log s

theorem booting_step (booting : Booting main log s) (taken : bootStep "ledger.db" s a = some t) :
    Booting main log t := by
  rcases booting with intact | torn
  · exact (intact_step intact taken).imp_right And.right
  · exact .inr (torn_step torn taken)

theorem kept_step_iff (booting : Booting main log s) (kept : ¬ Lost s)
    (taken : bootStep "ledger.db" s a = some t) : ¬ Lost t ↔ noTornCrash s a := by
  by_cases crash : a = .crash
  · subst crash
    cases taken
    simp [Lost, noTornCrash]
  · simp only [noTornCrash, crash, false_implies, iff_true]
    rcases booting with intact | torn
    · rcases intact_step intact taken with intact | ⟨crashed, _⟩
      · exact intact_kept intact
      · exact absurd crashed crash
    · rw [torn_lost_iff torn] at kept
      rwa [torn_lost_iff (torn_step torn taken)]

theorem lost_step (booting : Booting main log s) (lost : ¬ ¬ Lost s)
    (taken : bootStep "ledger.db" s a = some t) : ¬ ¬ Lost t := by
  rw [not_not] at lost ⊢
  rcases booting with intact | torn
  · exact absurd lost (intact_kept intact)
  · rw [torn_lost_iff torn] at lost
    rwa [torn_lost_iff (torn_step torn taken)]

theorem opened_keeps_iff (booting : Booting main log s) (opened : s.pc = .opened) :
    KeepsLedger (main.append (log.getD .empty)) (s.files.committed "ledger.db") ↔ ¬ Lost s := by
  rcases booting with intact | torn
  · refine ⟨fun _ => intact_kept intact, fun _ => ?_⟩
    cases intact with
    | untouched _ _ _ _ pc => simp [opened] at pc
    | halfway _ _ _ pc => simp [opened] at pc
    | moved _ _ rows =>
      rw [rows]
      exact within_once within_refl
  · rw [torn_lost_iff torn, not_not, torn.rows]
    exact ⟨fun keeps => (within_append.mp keeps.rows).2,
      fun within => within_once (within_append.mpr ⟨within_refl, within⟩)⟩

end Boot

/-- However often the start is interrupted, the ledger that is finally opened has every row of
    the legacy one exactly when no crash comes while its log is stranded. -/
theorem migration_keeps_ledger_iff {files : Directory} (legacyOnly : LegacyOnly files)
    {actions : List BootAction} {s : Boot}
    (ran : run (bootStep "ledger.db") ⟨files, .down⟩ actions = some s) (opened : s.pc = .opened) :
    KeepsLedger (files.committed "tools.db") (s.files.committed "ledger.db") ↔
      EachStep (bootStep "ledger.db") noTornCrash ⟨files, .down⟩ actions := by
  obtain ⟨main, legacy⟩ := Option.isSome_iff_exists.mp legacyOnly.legacy
  have start : Intact main (files "tools.db-wal") ⟨files, .down⟩ :=
    .untouched legacyOnly.ledger legacyOnly.ledgerLog legacy rfl (.inl rfl)
  have rows : files.committed "tools.db" = main.append ((files "tools.db-wal").getD .empty) := by
    simp [Directory.committed, legacy]
  have reached : ∀ s a t, Booting main (files "tools.db-wal") s →
      bootStep "ledger.db" s a = some t → Booting main (files "tools.db-wal") t :=
    fun _ _ _ booting taken => booting_step booting taken
  have run : Reachable (bootStep "ledger.db") anyStep ⟨files, .down⟩ s :=
    reachable_run actions (fun _ _ _ => trivial) .start ran
  have booting : Booting main (files "tools.db-wal") s :=
    reachable_invariant (.inl start) (fun s a t _ booting _ taken => booting_step booting taken) run
  rw [rows, opened_keeps_iff booting opened, ← always_iff_eachStep (P := fun s => ¬ Lost s) reached
    (fun _ _ _ booting kept taken => kept_step_iff booting kept taken) actions _ (.inl start)
    (intact_kept start)]
  exact ⟨always_of_last reached (fun _ _ _ booting lost taken => lost_step booting lost taken)
    actions (.inl start) ran, fun always => always_last (P := fun s => ¬ Lost s) actions always ran⟩

section Example

def chargeResult : IdempotencyResult :=
  ⟨"a1:charge", .charge, "", ⟨.charge, "charge_0123456789abcdef", false⟩, 0⟩

def chargeEffect : SideEffect :=
  ⟨"charge_0123456789abcdef", "a1:charge", .charge, .null, 0⟩

/- The charge is committed, but only in the log. -/
def uncheckpointed : Directory := fun name =>
  if name = "tools.db" then some .empty
  else if name = "tools.db-wal" then some ⟨[chargeResult], [chargeEffect]⟩
  else none

/- The main file is renamed, its log is not. -/
def interruptedRename : List BootAction :=
  [.start, .advance, .advance, .advance, .advance, .crash, .start, .advance, .advance]

theorem interrupted_rename_loses_charge : ∃ s,
    run (bootStep "ledger.db") ⟨uncheckpointed, .down⟩ interruptedRename = some s ∧
      s.pc = .opened ∧
      ¬ KeepsLedger (uncheckpointed.committed "tools.db") (s.files.committed "ledger.db") := by
  have ended : (run (bootStep "ledger.db") ⟨uncheckpointed, .down⟩ interruptedRename).map (fun s =>
      (s.pc, (s.files.committed "ledger.db").sideEffects.length)) = some (.opened, 0) := by
    decide +kernel
  obtain ⟨s, ran, ended⟩ := Option.map_eq_some_iff.mp ended
  refine ⟨s, ran, congrArg Prod.fst ended, fun keeps => ?_⟩
  have charged : chargeEffect ∈ (uncheckpointed.committed "tools.db").sideEffects :=
    List.mem_singleton_self _
  have kept := keeps.rows.effects chargeEffect charged
  rw [List.length_eq_zero_iff.mp (congrArg Prod.snd ended)] at kept
  cases kept

def uninterruptedRename : List BootAction := .start :: List.replicate 9 .advance

theorem uninterrupted_rename_keeps_charge : ∃ s,
    run (bootStep "ledger.db") ⟨uncheckpointed, .down⟩ uninterruptedRename = some s ∧
      KeepsLedger (uncheckpointed.committed "tools.db") (s.files.committed "ledger.db") := by
  have ended : (run (bootStep "ledger.db") ⟨uncheckpointed, .down⟩ uninterruptedRename).map
      (·.pc) = some .opened := by
    decide +kernel
  obtain ⟨s, ran, opened⟩ := Option.map_eq_some_iff.mp ended
  refine ⟨s, ran, (migration_keeps_ledger_iff ⟨rfl, rfl, rfl⟩ ran opened).mpr ?_⟩
  refine eachStep_of_all uninterruptedRename (fun s a member crash => ?_) _
  subst crash
  simp [uninterruptedRename] at member

end Example

end Crashsafe
