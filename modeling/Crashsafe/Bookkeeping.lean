import Crashsafe.ReadBack

/- The bookkeeping of one run's rows survives every method, whatever the history says. -/
namespace Crashsafe
open Rows Replay

section Moves
variable {runId : String} {v w : RunView}

theorem tidy_append (h : Tidy runId v) (exists' : v.runs ≠ []) (payload : EventPayload)
    (notCreation : payload.eventType ≠ .workflowRunCreated) (now : Datetime)
    (stepId : Option String) (attempt : Option Int) (version : Int) :
    Tidy runId (v.append runId payload now stepId attempt version) := by
  refine ⟨h.runs, h.leases, ?_, sequences_snoc h.sequences runId payload now stepId attempt version,
    fun none => absurd none exists', fun _ => by simp [RunView.append], h.distinct, h.submitted, ?_⟩
  · intro e member
    rcases List.mem_append.mp member with old | new
    · exact h.runIds e old
    · rw [List.mem_singleton.mp new]
      rfl
  · intro e member created read
    rcases List.mem_append.mp member with old | new
    · exact h.snapshots e old created read
    · rw [List.mem_singleton.mp new] at read
      simp only [eventOf, Option.some.injEq] at read
      rw [read] at notCreation
      exact absurd rfl notCreation

theorem tidy_set_step (h : Tidy runId v) (exists' : v.runs ≠ []) (set : StepRow → StepRow)
    (keeps : ∀ row, immutable (set row) = immutable row) (stepId : String) :
    Tidy runId (v.setStep stepId set) := by
  refine ⟨h.runs, h.leases, h.runIds, h.sequences, fun none => absurd none exists', h.present, ?_,
    ?_, h.snapshots⟩
  · have ids := map_updateWhere (g := fun row : StepRow => row.id) (p := fun row => row.id = stepId)
      (fun row _ => congrArg (·.2.id) (keeps row)) v.steps
    exact ids ▸ h.distinct
  intro row member
  obtain ⟨old, inside, same⟩ := mem_updateWhere.mp member
  have submitted := h.submitted old inside
  have operation : (set old).operation = old.operation := congrArg (·.2.operation) (keeps old)
  have request : (set old).request = old.request := congrArg (·.2.request) (keeps old)
  split at same
  · rw [← same, operation, request]
    exact submitted
  · rw [← same]
    exact submitted

theorem tidy_set_run (h : Tidy runId v) (exists' : v.runs ≠ [])
    (set : WorkflowRunRow → WorkflowRunRow) : Tidy runId (v.setRun set) :=
  ⟨by simpa [RunView.setRun] using h.runs, h.leases, h.runIds, h.sequences,
    fun none => absurd (by simpa [RunView.setRun] using none) exists', fun _ => h.present exists',
    h.distinct, h.submitted, h.snapshots⟩

theorem tidy_move {row : StepRow} {now : Datetime} {write : Write} (h : Tidy runId v)
    (member : row ∈ v.steps) (move : RunMove runId v row now write w) : Tidy runId w := by
  have exists' : v.runs ≠ [] := by
    intro none
    rw [h.absent none] at member
    simp [RunView.empty] at member
  cases move with
  | attempted =>
    refine tidy_set_step (tidy_append h exists' _ ?_ _ _ _ _) exists' _ ?_ _
    · simp [attemptPayload, EventPayload.eventType]
    · exact fun _ => rfl
  | retried =>
    refine tidy_set_step (tidy_append h exists' _ ?_ _ _ _ _) exists' _ ?_ _
    · simp [EventPayload.eventType]
    · exact fun _ => rfl
  | failed =>
    refine tidy_set_run (tidy_set_step (tidy_append (tidy_append h exists' _ ?_ _ _ _ _) exists'
      _ ?_ _ _ _ _) exists' _ ?_ _) exists' _
    · simp [EventPayload.eventType]
    · simp [EventPayload.eventType]
    · exact fun _ => rfl
  | completed output active w written more =>
    subst written
    refine tidy_set_step (tidy_append h exists' _ ?_ _ _ _ _) exists' _ ?_ _
    · simp [EventPayload.eventType]
    · exact fun _ => rfl
  | finished output active w written all =>
    subst written
    refine tidy_set_run (tidy_append (tidy_set_step (tidy_append h exists' _ ?_ _ _ _ _) exists'
      _ ?_ _) exists' _ ?_ _ _ _ _) exists' _
    · simp [EventPayload.eventType]
    · exact fun _ => rfl
    · simp [EventPayload.eventType]

theorem tidy_leases (h : Tidy runId v) (same : w = { v with leases := w.leases })
    (single : w.leases.length ≤ 1) (kept : v.runs = [] → w.leases = []) : Tidy runId w := by
  rw [same]
  refine ⟨h.runs, single, h.runIds, h.sequences, ?_, h.present, h.distinct, h.submitted, h.snapshots⟩
  intro none
  rw [kept none, h.absent none]
  rfl

theorem tidy_empty : Tidy runId RunView.empty := by
  constructor <;> simp [RunView.empty]

end Moves

section Writes
variable {db db' : Database} {runId : String}

theorem tidy_created {definition : WorkflowDefinition} {toolKey : Option String}
    {defaultToolKey : String} {now : Datetime} (absent : db.view runId = RunView.empty)
    (h : createWorkflowRun db definition toolKey defaultToolKey runId now = .ok db') :
    Tidy runId (db'.view runId) := by
  have submitted : ∀ d ∈ (createdPayload definition toolKey defaultToolKey runId).steps,
      Submitted d.operation d.request := by
    intro d member
    obtain ⟨step, inside, _, _, operation, request, _⟩ := materialized_mem member
    exact ⟨step.request, (definition.stepsAccepted step inside).2.2, operation, request⟩
  rw [(create_ok absent h).1]
  constructor
  case submitted =>
    intro row member
    obtain ⟨step, present, rfl⟩ := List.mem_map.mp member
    obtain ⟨d, inside, rfl⟩ := List.mem_map.mp present
    exact submitted d inside
  case distinct =>
    have ids := (materialized_ids runId definition.steps (selectedTool defaultToolKey toolKey)).symm ▸
      (validate_graph_ok definition.graph).1
    simpa [projectionOf, startedRun, pendingStep, rebuiltStepRow, createdPayload, Function.comp_def]
      using ids
  case snapshots =>
    intro e member created read
    rw [List.mem_singleton.mp member] at read
    cases read
    exact submitted
  all_goals simp [projectionOf, RunView.empty, creationEvent, eventOf, nextOf, numbering_succ]

theorem tidy_rebuilt {rebuilt : WorkflowRun} {created : WorkflowRunCreatedPayload}
    {seen later : List WorkflowRunEvent} (h : Tidy runId (db.view runId))
    (grown : (db.view runId).events = seen ++ later)
    (read : reduceWorkflowRunHistory seen = .ok rebuilt)
    (rebuild : rebuildProjection db runId rebuilt created = .ok db') :
    Tidy runId (db'.view runId) := by
  have seenIds : ∀ e ∈ seen, e.runId = runId := fun e member =>
    h.runIds e (by rw [grown]; exact List.mem_append_left _ member)
  obtain ⟨_, _, named, payload, sound⟩ := read_history seenIds read
  subst named
  rw [(rebuild_ok sound.stepRunIds rebuild).1]
  obtain ⟨first, rest, shape, creation, _⟩ := sound.bracketed.creation
  refine ⟨by simp [projectionOf], by simp, h.runIds, h.sequences, by simp [projectionOf], ?_, ?_, ?_,
    h.snapshots⟩
  · intro _
    simp only [projectionOf, grown, shape]
    simp
  · simpa [projectionOf, rebuiltStepRow, Function.comp_def] using sound.distinct
  · intro row member
    obtain ⟨step, inside, rfl⟩ := List.mem_map.mp member
    have stored : first ∈ (db.view rebuilt.runId).events := by
      rw [grown, shape]
      simp
    apply h.snapshots first stored payload creation.payload (snapshot step)
    rw [← sound.snapshots]
    exact List.mem_map_of_mem inside

end Writes

section Views
variable {db db' : Database}

theorem get_step_row_unique {runId : String} (h : Tidy runId (db.view runId)) {row : StepRow}
    (member : row ∈ (db.view runId).steps) : getStepRow db runId row.id = .ok row := by
  have stored := mem_ofKey.mp member
  cases found : getStepRow db runId row.id with
  | error e =>
    unfold getStepRow at found
    split at found
    · rename_i none
      have missing := List.find?_eq_none.mp none row stored.1
      simp [stored.2] at missing
    · cases found
  | ok other =>
    obtain ⟨present, named⟩ := get_step_row_ok found
    rw [List.inj_on_of_nodup_map h.distinct present member named]

theorem create_absent {definition : WorkflowDefinition} {toolKey : Option String}
    {defaultToolKey runId : String} {now : Datetime}
    (h : createWorkflowRun db definition toolKey defaultToolKey runId now = .ok db') :
    (db.view runId).runs = [] := by
  unfold createWorkflowRun at h
  obtain ⟨_, inserted, _⟩ := bind_ok.mp h
  exact (insert_run_ok inserted).1

/-- A claim leaves everything of its run but the lease. -/
theorem granted_view {ownerId : String} {now : Datetime} {claim : ClaimedStep}
    (granted : Granted db ownerId now db' claim) (runId : String) :
    db'.view runId = { db.view runId with leases := (db'.view runId).leases } := by
  by_cases here : runId = claim.lease.runId
  · rw [here]
    exact granted.rest
  · rw [granted.others runId here]

theorem tidy_granted {ownerId : String} {now : Datetime} {claim : ClaimedStep}
    (granted : Granted db ownerId now db' claim) {runId : String} (h : Tidy runId (db.view runId)) :
    Tidy runId (db'.view runId) := by
  by_cases here : runId = claim.lease.runId
  · subst here
    have written := granted.lease h.leases
    refine tidy_leases h granted.rest (by rw [written]; simp) fun none => ?_
    obtain ⟨_, _, run, member, _⟩ := granted.selected
    rw [none] at member
    simp at member
  · rw [granted.others runId here]
    exact h

end Views

end Crashsafe
