import Crashsafe.Agreement
import Crashsafe.Repair

/- The rows of a run from one state to the next, and where the requests that the workers send
   come from. -/
namespace Crashsafe
open Rows Replay Execution

section StepRows
variable {d : Deployment} {s t : State} {a : Action} {runId : String} {row : StepRow}

/-- What a row that a creation has just inserted looks like. -/
structure FreshRow (runId : String) (row : StepRow) : Prop where
  pending : row.status = .pending
  operationKey : row.operationKey = operationKey runId row.id
  output : row.output = none
  nextAttemptAt : row.nextAttemptAt = none

theorem created_row {db db' : Database} {definition : WorkflowDefinition} {toolKey : Option String}
    {defaultToolKey : String} {now : Datetime} (absent : db.view runId = RunView.empty)
    (done : createWorkflowRun db definition toolKey defaultToolKey runId now = .ok db')
    (member : row ∈ (db'.view runId).steps) : FreshRow runId row := by
  rw [(create_ok absent done).1] at member
  obtain ⟨step, inside, rfl⟩ := List.mem_map.mp member
  obtain ⟨definition', given, rfl⟩ := List.mem_map.mp inside
  obtain ⟨_, _, sameId, _, _, _, key⟩ := materialized_mem given
  refine ⟨rfl, ?_, rfl, rfl⟩
  change definition'.operationKey = operationKey runId definition'.id
  rw [key, sameId]

/-- A row after a step was there before, was written by a transition, or is fresh. -/
theorem row_after (guarded : Guarded s) (effect : Effect d s a t)
    (member : row ∈ (t.db.view runId).steps) :
    row ∈ (s.db.view runId).steps ∨
    (∃ old now write, old ∈ (s.db.view runId).steps ∧ row = write.set old now old ∧
      RunMove runId (s.db.view runId) old now write (t.db.view runId) ∧
      MovedBy s t runId old.id a write) ∨
    (FreshRow runId row ∧ ∃ p, (s.pc p).creating? = some runId) := by
  cases effect_view guarded.coherent effect runId with
  | same view => exact .inl (view ▸ member)
  | created definition toolKey defaultToolKey now absent done log creator =>
    obtain ⟨p, was⟩ := creator
    exact .inr (.inr ⟨created_row absent done member, p, by rw [was]; rfl⟩)
  | moved old now write inside move mover =>
    rw [move_steps move] at member
    obtain ⟨before, present, same⟩ := mem_updateWhere.mp member
    split at same
    · rename_i here
      have self : before = old := List.inj_on_of_nodup_map (guarded.coherent.tidy runId).distinct
        present inside (by simpa using here)
      subst self
      exact .inr (.inl ⟨before, now, write, present, same.symm, move, mover⟩)
    · exact .inl (same ▸ present)
  | granted owner now claim granted =>
    rw [granted_view granted runId] at member
    exact .inl member
  | touched pairs rest =>
    rw [rest] at member
    exact .inl member
  | rebuilt p history rebuilt created acted was =>
    have unread := guarded.unread p
    rw [was] at unread
    cases unread

/-- A row stays, whole if it was COMPLETED, and never becomes PENDING again. -/
theorem row_kept (guarded : Guarded s) (effect : Effect d s a t)
    (member : row ∈ (s.db.view runId).steps) :
    ∃ after ∈ (t.db.view runId).steps, immutable after = immutable row ∧
      (row.status ≠ .pending → after.status ≠ .pending) ∧ (row.status = .completed → after = row) := by
  have same : row ∈ (t.db.view runId).steps → ∃ after ∈ (t.db.view runId).steps,
      immutable after = immutable row ∧ (row.status ≠ .pending → after.status ≠ .pending) ∧
        (row.status = .completed → after = row) :=
    fun inside => ⟨row, inside, rfl, id, fun _ => rfl⟩
  cases effect_view guarded.coherent effect runId with
  | same view => exact same (view ▸ member)
  | created definition toolKey defaultToolKey now absent =>
    rw [absent] at member
    cases member
  | moved old now write inside move =>
    by_cases here : row.id = old.id
    · have self : row = old :=
        List.inj_on_of_nodup_map (guarded.coherent.tidy runId).distinct member inside here
      subst self
      refine ⟨write.set row now row, ?_, write_keeps_immutable row now write row, fun _ => ?_,
        fun completed => ?_⟩
      · rw [move_steps move]
        exact mem_updateWhere.mpr ⟨row, inside, by simp⟩
      · cases write <;> simp [Write.set, setAttempt, setRetry, setFailed, setCompleted]
      · have permitted := move_permitted move
        cases write <;> simp [Write.Permits, completed, runnableStatuses] at permitted
    · apply same
      rw [move_steps move]
      exact mem_updateWhere.mpr ⟨row, member, by simp [here]⟩
  | granted owner now claim granted =>
    rw [granted_view granted runId] at same ⊢
    exact same member
  | touched pairs rest =>
    rw [rest] at same ⊢
    exact same member
  | rebuilt p history rebuilt created acted was =>
    have unread := guarded.unread p
    rw [was] at unread
    cases unread

end StepRows

section Histories
variable {d : Deployment} {s t : State} {a : Action} {runId : String}

/-- The processes that write events, with the time they give them. -/
inductive Appended (d : Deployment) (s t : State) (runId : String) : Prop where
  | created (p : Nat) (definition : WorkflowDefinition) (toolKey : Option String) (now : Datetime)
      (was : s.pc p = .creating runId definition toolKey now)
      (absent : s.db.view runId = RunView.empty)
      (done : createWorkflowRun s.db definition toolKey (d.defaultToolKey p) runId now = .ok t.db)
  | recorded (p : Nat) (claim : ClaimedStep) (now : Datetime) (row : StepRow)
      (was : s.pc p = .recording claim now) (here : claim.lease.runId = runId)
      (pair : pairOf claim.lease ∈ (s.db.view runId).pairs) (member : row ∈ (s.db.view runId).steps)
      (named : row.id = claim.step.id)
      (move : RunMove runId (s.db.view runId) row now
        (.attempt (some claim.lease.ownerId) (some claim.lease.fenceToken)) (t.db.view runId))
  | decided (p : Nat) (claim : ClaimedStep) (step : StepRecord) (decision : Decision) (now : Datetime)
      (row : StepRow) (was : s.pc p = .committing claim step decision now)
      (here : claim.lease.runId = runId) (pair : pairOf claim.lease ∈ (s.db.view runId).pairs)
      (move : RunMove runId (s.db.view runId) row now decision.write (t.db.view runId))

theorem touched_events {db db' : Database} {target owner : String} {token : Int}
    (touched : Touched db target owner token db') (runId : String) :
    (db'.view runId).events = (db.view runId).events := by
  by_cases here : runId = target
  · subst here
    rw [touched.rest]
  · rw [touched.others runId here]

/-- A history stays or grows by what a creation, an attempt or a decision writes. -/
theorem events_effect (guarded : Guarded s) (effect : Effect d s a t) (runId : String) :
    (t.db.view runId).events = (s.db.view runId).events ∨ Appended d s t runId := by
  cases effect with
  | quiet | sent | resolved | read => exact .inl rfl
  | @created p target definition toolKey now db was done =>
    have absent := (guarded.coherent.tidy target).absent (create_absent done)
    by_cases here : runId = target
    · subst here
      exact .inr (.created p definition toolKey now was absent done)
    · exact .inl (congrArg RunView.events ((create_ok absent done).2 runId here))
  | granted was granted =>
    have same := congrArg RunView.events (granted_view granted runId)
    exact .inl same
  | @recorded p claim now leaseNow db row was committed =>
    have sameRun := (guarded.coherent.claims p claim (by rw [was]; rfl)).2
    by_cases here : runId = claim.step.runId
    · have pair := require_lease_ok committed.lease
      rw [(mem_ofKey.mp committed.member).2] at pair
      subst here
      exact .inr (.recorded p claim now row was sameRun.symm pair committed.member committed.named
        committed.move)
    · exact .inl (congrArg RunView.events (committed.others runId here))
  | @decided p claim step decision now leaseNow db row was committed =>
    have sameRun := guarded.coherent.attempts p claim step (by rw [was]; rfl)
    by_cases here : runId = step.runId
    · have pair := require_lease_ok committed.lease
      rw [(mem_ofKey.mp committed.member).2] at pair
      subst here
      exact .inr (.decided p claim step decision now row was sameRun.symm pair committed.move)
    · exact .inl (congrArg RunView.events (committed.others runId here))
  | released was touched => exact .inl (touched_events touched runId)
  | renewed held same touched => exact .inl (touched_events touched runId)
  | @rebuilt p target history rebuilt created db was done =>
    have unread := guarded.unread p
    rw [was] at unread
    cases unread

end Histories

section Positions
variable {d : Deployment} {s t : State} {a : Action} {q : Nat}

theorem waiting_effect (effect : Effect d s a t) {step : StepRecord} {request : Nat}
    (held : (t.pc q).waiting? = some (step, request)) :
    (s.pc q).waiting? = some (step, request) ∨
      (t.sent = s.sent ++ [requestOf step] ∧ request = s.sent.length) := by
  cases effect with
  | @quiet a p pc beats forgets same => exact .inl ((goto_forgets forgets q).waiting _ held)
  | @sent p claim step' was =>
    by_cases here : q = p
    · subst here
      simp only [goto_same, Pc.waiting?, Option.some.injEq, Prod.mk.injEq] at held
      obtain ⟨rfl, rfl⟩ := held
      exact .inr ⟨rfl, rfl⟩
    · exact .inl (by simpa [goto_other here] using held)
  | renewed => exact .inl held
  | @created p _ _ _ _ _ was _ | @granted p _ _ _ _ was _ | @recorded p _ _ _ _ _ was _
  | @resolved p _ _ _ _ _ _ was _ | @decided p _ _ _ _ _ _ _ was _ | @released p _ _ _ was _
  | @read p _ _ _ _ _ | @rebuilt p _ _ _ _ _ was _ =>
    by_cases here : q = p
    · subst here
      simp_all [Pc.waiting?]
    · exact .inl (by simpa [goto_other here] using held)

theorem decision_effect (effect : Effect d s a t) {step : StepRecord} {decision : Decision}
    (held : (t.pc q).decision? = some (step, decision)) :
    (s.pc q).decision? = some (step, decision) ∨
      ∃ claim request outcome now, s.pc q = .waiting claim step request ∧
        a = .resolve q outcome now ∧ t.db = s.db ∧ t.sent = s.sent ∧
        decideOutcome (d.settings q) step now outcome = some decision := by
  cases effect with
  | @quiet a p pc beats forgets same => exact .inl ((goto_forgets forgets q).decision _ held)
  | @resolved p request claim step' outcome now decision' was chosen =>
    by_cases here : q = p
    · subst here
      simp only [goto_same, Pc.decision?, Option.some.injEq, Prod.mk.injEq] at held
      obtain ⟨rfl, rfl⟩ := held
      exact .inr ⟨claim, request, outcome, now, was, rfl, rfl, rfl, chosen⟩
    · exact .inl (by simpa [goto_other here] using held)
  | renewed => exact .inl held
  | @created p _ _ _ _ _ was _ | @granted p _ _ _ _ was _ | @recorded p _ _ _ _ _ was _
  | @sent p _ _ was | @decided p _ _ _ _ _ _ _ was _ | @released p _ _ _ was _
  | @read p _ _ _ _ _ | @rebuilt p _ _ _ _ _ was _ =>
    by_cases here : q = p
    · subst here
      simp_all [Pc.decision?]
    · exact .inl (by simpa [goto_other here] using held)

theorem creating_effect (effect : Effect d s a t) {runId : String}
    (held : (t.pc q).creating? = some runId) :
    (s.pc q).creating? = some runId ∨ uuidText runId = true := by
  cases effect with
  | @quiet a p pc beats forgets same => exact (goto_forgets forgets q).creating _ held
  | renewed => exact .inl held
  | @created p _ _ _ _ _ was _ | @granted p _ _ _ _ was _ | @recorded p _ _ _ _ _ was _
  | @sent p _ _ was | @resolved p _ _ _ _ _ _ was _ | @decided p _ _ _ _ _ _ _ was _
  | @released p _ _ _ was _ | @read p _ _ _ _ _ | @rebuilt p _ _ _ _ _ was _ =>
    by_cases here : q = p
    · subst here
      simp_all [Pc.creating?]
    · exact .inl (by simpa [goto_other here] using held)

/-- The log of sent requests grows by the request of the step just recorded. -/
theorem sent_effect (effect : Effect d s a t) :
    t.sent = s.sent ∨ ∃ p claim step, s.pc p = .attempted claim step ∧ a = .send p ∧
      t.pc p = .waiting claim step s.sent.length ∧ t.db = s.db ∧
      t.sent = s.sent ++ [requestOf step] := by
  cases effect with
  | @sent p claim step was => exact .inr ⟨p, claim, step, was, rfl, goto_same, rfl, rfl⟩
  | _ => exact .inl rfl

end Positions

/-- The request is the one persisted with a step that has started. -/
def Persisted (db : Database) (r : SentRequest) : Prop :=
  ∃ row ∈ (db.view r.runId).steps, row.id = r.stepId ∧ row.operation = r.operation ∧
    row.request = r.request ∧ row.operationKey = r.operationKey ∧ row.status ≠ .pending

/- Where keys and requests come from. -/
structure Traced (s : State) : Prop where
  faithful : Faithful s
  creating : ∀ p runId, (s.pc p).creating? = some runId → uuidText runId = true
  keys : ∀ runId, ∀ row ∈ (s.db.view runId).steps,
    row.operationKey = operationKey runId row.id ∧ uuidText runId = true
  attempts : ∀ p claim step, (s.pc p).attempt? = some (claim, step) → Persisted s.db (requestOf step)
  waiting : ∀ p step request, (s.pc p).waiting? = some (step, request) →
    s.sent[request]? = some (requestOf step)
  sent : ∀ r ∈ s.sent, Persisted s.db r

section Kept
variable {d : Deployment} {s t : State} {a : Action}

theorem immutable_fields {x y : StepRow} (same : immutable x = immutable y) :
    x.runId = y.runId ∧ x.id = y.id ∧ x.position = y.position ∧ x.operation = y.operation ∧
      x.request = y.request ∧ x.operationKey = y.operationKey ∧ x.toolKey = y.toolKey := by
  simp only [immutable, snapshot, stepFromRow, Prod.mk.injEq, StepDefinition.mk.injEq, true_and] at same
  obtain ⟨runId, id, position, operation, request, key, tool⟩ := same
  exact ⟨runId, id, position, operation, request, key, tool⟩

theorem persisted_kept (guarded : Guarded s) (effect : Effect d s a t) {r : SentRequest}
    (before : Persisted s.db r) : Persisted t.db r := by
  obtain ⟨row, member, id, operation, request, key, started⟩ := before
  obtain ⟨after, inside, same, still, _⟩ := row_kept guarded effect member
  obtain ⟨_, sameId, _, sameOperation, sameRequest, sameKey, _⟩ := immutable_fields same
  exact ⟨after, inside, sameId.trans id, sameOperation.trans operation, sameRequest.trans request,
    sameKey.trans key, still started⟩

theorem keys_effect (traced : Traced s) (effect : Effect d s a t) (runId : String) :
    ∀ row ∈ (t.db.view runId).steps,
      row.operationKey = operationKey runId row.id ∧ uuidText runId = true := by
  intro row member
  rcases row_after traced.faithful.guarded effect member with
    old | ⟨old, now, write, inside, written, _, _⟩ | ⟨fresh, p, creating⟩
  · exact traced.keys runId row old
  · obtain ⟨key, named⟩ := traced.keys runId old inside
    have same := immutable_fields (write_keeps_immutable old now write old)
    rw [← written] at same
    exact ⟨by rw [same.2.2.2.2.2.1, same.2.1, key], named⟩
  · exact ⟨fresh.operationKey, traced.creating p runId creating⟩

theorem attempts_effect (traced : Traced s) (effect : Effect d s a t) (p : Nat) (claim : ClaimedStep)
    (step : StepRecord) (held : (t.pc p).attempt? = some (claim, step)) :
    Persisted t.db (requestOf step) := by
  have guarded := traced.faithful.guarded
  rcases attempt_effect effect held with before | ⟨now, leaseNow, row, was, _, committed, same⟩
  · exact persisted_kept guarded effect (traced.attempts p claim step before)
  · have sameRun : row.runId = claim.step.runId := (mem_ofKey.mp committed.member).2
    refine ⟨setAttempt (row.attempts + 1) now row, ?_, ?_⟩
    · rw [same]
      change _ ∈ (t.db.view row.runId).steps
      rw [sameRun, move_steps committed.move]
      exact mem_updateWhere.mpr ⟨row, committed.member, by simp [Write.set]⟩
    · rw [same]
      exact ⟨rfl, rfl, rfl, rfl, by simp [setAttempt]⟩

theorem traced_effect (traced : Traced s) (faithful : Faithful t) (effect : Effect d s a t) :
    Traced t := by
  have guarded := traced.faithful.guarded
  refine ⟨faithful, ?_, keys_effect traced effect, attempts_effect traced effect, ?_, ?_⟩
  · intro p runId held
    exact (creating_effect effect held).elim (traced.creating p runId) id
  · intro p step request held
    rcases waiting_effect effect held with before | ⟨grown, last⟩
    · have there := traced.waiting p step request before
      rcases sent_effect effect with same | ⟨_, _, _, _, _, _, _, grown⟩
      · rw [same, there]
      · obtain ⟨inside, _⟩ := List.getElem?_eq_some_iff.mp there
        rw [grown, List.getElem?_append_left inside, there]
    · rw [grown, last]
      simp
  · intro r member
    rcases sent_effect effect with same | ⟨p, claim, step, was, _, _, sameDb, grown⟩
    · exact persisted_kept guarded effect (traced.sent r (same ▸ member))
    · rw [grown] at member
      rcases List.mem_append.mp member with old | new
      · exact persisted_kept guarded effect (traced.sent r old)
      · rw [List.mem_singleton.mp new, sameDb]
        exact traced.attempts p claim step (by rw [was]; rfl)

theorem traced_start : Traced State.initial := by
  refine ⟨faithful_start, ?_, ?_, ?_, ?_, ?_⟩
  · intro p runId held
    cases held
  · intro runId row member
    cases member
  · intro p claim step held
    cases held
  · intro p step request held
    cases held
  · intro r member
    cases member

theorem traced_reachable (reached : Reachable (step d) noRebuild State.initial s) : Traced s := by
  refine reachable_invariant traced_start ?_ reached
  intro s a t before traced may taken
  exact traced_effect traced (faithful_reachable (.next before may taken)) (step_effect taken)

end Kept

section Keys

theorem uuid_without_colon {runId : String} (named : uuidText runId = true) :
    ':' ∉ runId.toList := by
  intro member
  exact absurd (List.all_eq_true.mp named ':' member) (by decide)

/-- No run id has a colon, so a key belongs to one run and one step. -/
theorem operation_key_inj {runId runId' stepId stepId' : String} (named : uuidText runId = true)
    (named' : uuidText runId' = true) (same : operationKey runId stepId = operationKey runId' stepId') :
    runId = runId' ∧ stepId = stepId' := by
  have chars := congrArg String.toList same
  rw [operation_key_chars, operation_key_chars] at chars
  obtain ⟨runs, steps⟩ :=
    separator_inj (uuid_without_colon named) (uuid_without_colon named') chars
  exact ⟨String.toList_inj.mp runs, String.toList_inj.mp steps⟩

/-- In the databases the engine writes the keys of different runs never meet. -/
theorem traced_keys_apart {s : State} (traced : Traced s) {runId : String}
    (named : uuidText runId = true) : KeysApart s.db runId := by
  intro row member differs stepId same
  obtain ⟨key, named'⟩ := traced.keys row.runId row (mem_ofKey.mpr ⟨member, rfl⟩)
  exact differs (operation_key_inj named' named (key.symm.trans same)).1

/-- A run that exists has rows, and so a proper id. -/
theorem run_named {s : State} (traced : Traced s) {runId : String}
    (present : (s.db.view runId).runs ≠ []) : uuidText runId = true := by
  obtain ⟨run, consistent⟩ := traced.faithful.projected runId present
  obtain ⟨_, _, created, sound⟩ := consistent_sound consistent
  obtain ⟨step, member⟩ := List.exists_mem_of_ne_nil _ (sound_run_nonempty sound)
  obtain ⟨row, inside, _⟩ := step_stored consistent member
  exact (traced.keys runId row inside).2

/-- Whatever becomes of the projection of a run that the engine has written, a rebuild brings back
    the run that was stored. -/
theorem stored_run_repairs {d : Deployment} {s : State} (reached : Reachable (step d) noRebuild State.initial s)
    {runId : String} {run : WorkflowRun} (got : getWorkflowRun s.db runId = .ok run) {db : Database}
    (events : db.workflowRunEvents = s.db.workflowRunEvents)
    (others : ∀ row ∈ db.steps, row.runId ≠ runId → row ∈ s.db.steps) :
    ∃ history db', rebuildRun db runId = .ok (db', run) ∧ Repaired db runId history run db' := by
  have traced := traced_reachable reached
  have consistent := projected_consistent reached got
  have tidy := traced.faithful.guarded.coherent.tidy runId
  obtain ⟨returned, history, read, listed, accepted⟩ := (projection_matches_iff tidy).mpr ⟨run, consistent⟩
  obtain rfl : returned = run := Except.ok.inj (read.symm.trans got)
  have same : listEvents db runId = listEvents s.db runId := by
    simp only [listEvents, Database.eventsOf, events]
  obtain ⟨row, rows, _⟩ := consistent.row
  have named := run_named traced (by rw [rows]; simp)
  have apart : KeysApart db runId := fun row member differs =>
    traced_keys_apart traced named row (others row member differs) differs
  exact ⟨history, accepted_history_repairs (same.trans listed) accepted apart⟩

end Keys

end Crashsafe
