import Crashsafe.JobBoard
import Crashsafe.Library.Counting
import Crashsafe.Library.Queries

/- What the ledger endpoint counts, for one run or for all, against the rows of the engine. -/
namespace Crashsafe
open Rows Execution Queries

structure LedgerSummary where
  charges : Nat
  provisions : Nat
  notifications : Nat
  deriving DecidableEq, Repr

def LedgerSummary.count (summary : LedgerSummary) : StepName → Nat
  | .charge => summary.charges
  | .provision => summary.provisions
  | .notify => summary.notifications

/- The rows whose key is like `{run_id}:%`. -/
def ToolStore.ofRun (store : ToolStore) (runId : String) : List SideEffect :=
  store.sideEffects.filter fun e => like s!"{runId}:%".toList e.operationKey.toList

def ToolStore.summary (store : ToolStore) (runId : Option String) : LedgerSummary :=
  let rows := match runId with
    | none => store.sideEffects
    | some runId => store.ofRun runId
  let counts := groupCount (·.operation) rows
  { charges := (counts.lookup .charge).getD 0
    provisions := (counts.lookup .provision).getD 0
    notifications := (counts.lookup .notify).getD 0 }

section Counts
variable {store : ToolStore} {runId : String} {operation : StepName}

theorem summary_all (store : ToolStore) (operation : StepName) :
    (store.summary none).count operation =
      store.sideEffects.countP fun e => e.operation = operation := by
  cases operation <;> exact lookup_groupCount _ _ _

theorem summary_run (store : ToolStore) (runId : String) (operation : StepName) :
    (store.summary (some runId)).count operation =
      (store.ofRun runId).countP fun e => e.operation = operation := by
  cases operation <;> exact lookup_groupCount _ _ _

end Counts

section Keys
variable {runId runId' stepId : String}

theorem lower_outside {c : Char} (outside : c < 'A' ∨ 'Z' < c) : c.toLower = c := by
  unfold Char.toLower
  rw [dif_neg]
  rintro ⟨low, high⟩
  exact outside.elim (fun before => absurd (low : 'A' ≤ c) (not_le.mpr before))
    (fun after => absurd (high : c ≤ 'Z') (not_le.mpr after))

theorem uuid_char {c : Char} (named : uuidText runId = true) (member : c ∈ runId.toList) :
    c.toLower = c ∧ c ≠ '%' ∧ c ≠ '_' := by
  have hex := List.all_eq_true.mp named c member
  simp only [Bool.or_eq_true, Bool.and_eq_true, decide_eq_true_eq] at hex
  rcases hex with (⟨low, high⟩ | ⟨low, high⟩) | rfl
  · refine ⟨lower_outside (.inl (lt_of_le_of_lt high (by decide))), ?_, ?_⟩ <;> rintro rfl
    · exact absurd low (by decide)
    · exact absurd high (by decide)
  · refine ⟨lower_outside (.inr (lt_of_lt_of_le (by decide) low)), ?_, ?_⟩ <;> rintro rfl
    · exact absurd low (by decide)
    · exact absurd low (by decide)
  · decide

/-- Only the keys of one run are like its pattern. -/
theorem like_key (named : uuidText runId = true) (named' : uuidText runId' = true) :
    like s!"{runId}:%".toList (operationKey runId' stepId).toList = true ↔ runId' = runId := by
  have pattern : s!"{runId}:%".toList = runId.toList ++ [':'] ++ ['%'] := by
    simp [toString, String.toList_append]
  have inside : ∀ c ∈ runId.toList ++ [':'], c.toLower = c ∧ c ≠ '%' ∧ c ≠ '_' := by
    intro c member
    rcases List.mem_append.mp member with hex | colon
    · exact uuid_char named hex
    · rw [List.mem_singleton.mp colon]
      decide
  rw [pattern, operation_key_chars, like_before_separator (fun c member => (inside c member).2)
    (fun c member => (inside c member).1) (fun c member => (uuid_char named' member).1)
    (uuid_without_colon named) (uuid_without_colon named'), String.toList_inj]

end Keys

section Agreement
variable {codec : ToolCodec} {w : World} {runId : String} {operation : StepName}

/- The rows of a run whose effect is on the ledger. -/
def performedRows (w : World) (runId : String) (operation : StepName) : List StepRow :=
  (w.engine.db.stepsOf runId).filter fun row =>
    row.operation = operation ∧ row.operationKey ∈ w.tool.store.sideEffects.map (·.operationKey)

/-- The effects counted for a run and its performed rows are the same keys. -/
theorem summary_performed (joined : Joined codec w) (named : uuidText runId = true) :
    (w.tool.store.summary (some runId)).count operation = (performedRows w runId operation).length := by
  have traced := joined.traced
  have tidy := traced.faithful.guarded.coherent.tidy runId
  have keyed := traced.keys runId
  let counted := (w.tool.store.ofRun runId).filter fun e => e.operation = operation
  have distinct : (counted.map (·.operationKey)).Nodup :=
    joined.sound.keys.sublist ((List.filter_sublist.trans List.filter_sublist).map _)
  have distinct' : ((performedRows w runId operation).map (·.operationKey)).Nodup := by
    refine List.Nodup.map_on ?_ (tidy.distinct.of_map.filter _)
    intro x hx y hy same
    have hx := (List.mem_filter.mp hx).1
    have hy := (List.mem_filter.mp hy).1
    exact (row_of_key traced hx hy ((keyed x hx).1.symm.trans (same.trans (keyed y hy).1))).2
  have same : (counted.map (·.operationKey)).Perm
      ((performedRows w runId operation).map (·.operationKey)) := by
    refine (List.perm_ext_iff_of_nodup distinct distinct').mpr fun key => ?_
    simp only [List.mem_map]
    constructor
    · rintro ⟨e, inside, rfl⟩
      obtain ⟨ofRun, kind⟩ := List.mem_filter.mp inside
      obtain ⟨member, alike⟩ := List.mem_filter.mp ofRun
      obtain ⟨other, row, there, key, same, _⟩ := effect_of_row joined member
      rw [key, like_key named (traced.keys other row there).2] at alike
      subst alike
      refine ⟨row, List.mem_filter.mpr ⟨there, ?_⟩, (keyed row there).1.trans key.symm⟩
      rw [decide_eq_true_eq] at kind ⊢
      exact ⟨same.symm.trans kind, List.mem_map.mpr ⟨e, member, key.trans (keyed row there).1.symm⟩⟩
    · rintro ⟨row, inside, rfl⟩
      obtain ⟨there, both⟩ := List.mem_filter.mp inside
      obtain ⟨kind, present⟩ := of_decide_eq_true both
      obtain ⟨e, member, key⟩ := List.mem_map.mp present
      obtain ⟨other, row', there', key', same, _⟩ := effect_of_row joined member
      have rowKey := (keyed row there).1
      obtain ⟨rfl, rfl⟩ := row_of_key traced there there' (rowKey.symm.trans (key.symm.trans key'))
      refine ⟨e, List.mem_filter.mpr ⟨List.mem_filter.mpr ⟨member, ?_⟩, ?_⟩, key⟩
      · rw [key', like_key named named]
      · rw [decide_eq_true_eq, same, kind]
  have lengths := same.length_eq
  rw [List.length_map, List.length_map] at lengths
  rw [summary_run, List.countP_eq_length_filter, ← lengths]

/- The run a key names. -/
def runOfKey (e : SideEffect) : String := String.ofList (e.operationKey.toList.takeWhile (· ≠ ':'))

theorem run_of_key {e : SideEffect} {id : String} (named : uuidText runId = true)
    (key : e.operationKey = operationKey runId id) : runOfKey e = runId := by
  have none : ∀ c ∈ runId.toList, decide (c ≠ ':') = true := by
    intro c member
    rw [decide_eq_true_eq]
    rintro rfl
    exact uuid_without_colon named member
  rw [runOfKey, key, operation_key_chars, List.takeWhile_append_of_pos none]
  simp

theorem summary_total (joined : Joined codec w) :
    (w.tool.store.summary none).count operation = (w.engine.db.workflowRuns.map fun run =>
      (w.tool.store.summary (some run.runId)).count operation).sum := by
  have traced := joined.traced
  have tidy := traced.faithful.guarded.coherent.tidy
  have distinct : (w.engine.db.workflowRuns.map (·.runId)).Nodup :=
    keys_distinct fun runId => (tidy runId).runs
  have keyed : ∀ e ∈ w.tool.store.sideEffects, decide (e.operation = operation) = true →
      runOfKey e ∈ w.engine.db.workflowRuns.map (·.runId) := by
    intro e member _
    obtain ⟨runId, row, inside, key, _⟩ := effect_of_row joined member
    have present : (w.engine.db.view runId).runs ≠ [] := by
      intro none
      rw [(tidy runId).absent none] at inside
      cases inside
    obtain ⟨run, there⟩ := List.exists_mem_of_ne_nil _ present
    obtain ⟨there, named⟩ := mem_ofKey.mp there
    rw [run_of_key (traced.keys runId row inside).2 key]
    exact List.mem_map.mpr ⟨run, there, named⟩
  rw [summary_all, Counting.countP_keys distinct keyed, List.map_map]
  refine congrArg List.sum (List.map_congr_left fun run member => ?_)
  have named : uuidText run.runId = true :=
    run_named traced (List.ne_nil_of_mem (mem_ofKey.mpr ⟨member, rfl⟩))
  rw [summary_run, ToolStore.ofRun, List.countP_filter]
  refine List.countP_congr fun e inside => ?_
  obtain ⟨other, row, there, key, _⟩ := effect_of_row joined inside
  have hex := (traced.keys other row there).2
  rw [run_of_key hex key, key, Bool.and_eq_true, Bool.and_eq_true, like_key named hex,
    decide_eq_true_eq (p := other = run.runId)]

end Agreement

/-- For one run the ledger counts at least its completed and at most its started steps, all of
    them once the run is completed; the counts of all runs add up to those of the ledger. -/
structure LedgerAgrees (w : World) : Prop where
  atLeast : ∀ runId, uuidText runId = true → ∀ operation,
    ((w.engine.db.stepsOf runId).countP fun row => row.operation = operation ∧ row.status = .completed) ≤
      (w.tool.store.summary (some runId)).count operation
  atMost : ∀ runId, uuidText runId = true → ∀ operation,
    (w.tool.store.summary (some runId)).count operation ≤
      (w.engine.db.stepsOf runId).countP fun row => row.operation = operation ∧ row.status ≠ .pending
  completed : ∀ runId, statusOf w.engine.db runId = some .completed → ∀ operation,
    (w.tool.store.summary (some runId)).count operation =
      (w.engine.db.stepsOf runId).countP fun row => row.operation = operation
  total : ∀ operation, (w.tool.store.summary none).count operation =
    (w.engine.db.workflowRuns.map fun run =>
      (w.tool.store.summary (some run.runId)).count operation).sum

section Bounds
variable {codec : ToolCodec} {w : World} {runId : String} {operation : StepName}

theorem completed_counted (joined : Joined codec w) (named : uuidText runId = true) :
    ((w.engine.db.stepsOf runId).countP fun row => row.operation = operation ∧ row.status = .completed) ≤
      (w.tool.store.summary (some runId)).count operation := by
  rw [summary_performed joined named, performedRows, ← List.countP_eq_length_filter]
  refine List.countP_mono_left fun row member both => ?_
  obtain ⟨kind, completed⟩ := of_decide_eq_true both
  obtain ⟨_, _, e, inside, key, _⟩ := joined.completed runId row member completed
  exact decide_eq_true ⟨kind, List.mem_map.mpr ⟨e, inside, key⟩⟩

theorem counted_started (joined : Joined codec w) (named : uuidText runId = true) :
    (w.tool.store.summary (some runId)).count operation ≤
      (w.engine.db.stepsOf runId).countP fun row => row.operation = operation ∧ row.status ≠ .pending := by
  rw [summary_performed joined named, performedRows, ← List.countP_eq_length_filter]
  refine List.countP_mono_left fun row member both => ?_
  obtain ⟨kind, present⟩ := of_decide_eq_true both
  obtain ⟨e, inside, key⟩ := List.mem_map.mp present
  obtain ⟨other, row', there, key', _, _, started⟩ := effect_of_row joined inside
  have rowKey := (joined.traced.keys runId row member).1
  obtain ⟨rfl, rfl⟩ := row_of_key joined.traced member there (rowKey.symm.trans (key.symm.trans key'))
  exact decide_eq_true ⟨kind, started⟩

end Bounds

theorem ledger_agrees {d : Deployment} {config : ToolConfig} {codec : ToolCodec} {w : World}
    (reached : Reachable (worldStep d config codec) honest (World.initial config) w) :
    LedgerAgrees w := by
  have joined := joined_reachable reached
  refine ⟨fun _ named _ => completed_counted joined named, fun _ named _ => counted_started joined named,
    fun runId ended operation => ?_, fun _ => summary_total joined⟩
  have completed := (completed_performed reached ended).1
  have present : (w.engine.db.view runId).runs ≠ [] := by
    intro none
    have none : w.engine.db.runsOf runId = [] := none
    simp [statusOf, none] at ended
  have named := run_named joined.traced present
  refine le_antisymm ((counted_started joined named).trans ?_) (le_trans ?_ (completed_counted joined named))
  · exact List.countP_mono_left fun row _ both => decide_eq_true (of_decide_eq_true both).1
  · exact List.countP_mono_left fun row member kind =>
      decide_eq_true ⟨of_decide_eq_true kind, completed row member⟩

/-- The charge is counted as completed, the provision while nobody has seen its answer. -/
theorem late_provision_counted :
    ∃ w, runWhere (worldStep sharedWorker quietTool modelCodec) honest (World.initial quietTool)
        lateProvision = some w ∧ w.tool.store.summary (some "a1") = ⟨1, 1, 0⟩ ∧
      (w.engine.db.stepsOf "a1").map (·.status) = [.completed, .intentRecorded] ∧ LedgerAgrees w := by
  have facts : (runWhere (worldStep sharedWorker quietTool modelCodec) honest (World.initial quietTool)
      lateProvision).map (fun w => (w.tool.store.summary (some "a1"),
        (w.engine.db.stepsOf "a1").map (·.status))) =
          some (⟨1, 1, 0⟩, [.completed, .intentRecorded]) := by
    decide +kernel
  obtain ⟨w, ran, facts⟩ := Option.map_eq_some_iff.mp facts
  simp only [Prod.mk.injEq] at facts
  exact ⟨w, ran, facts.1, facts.2, ledger_agrees (reachable_runWhere lateProvision .start ran)⟩

end Crashsafe
