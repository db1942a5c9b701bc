import Crashsafe.ExactlyOnce
import Crashsafe.Punctuality
import Crashsafe.Library.DependencyOrder

/- What is on record before a request leaves its worker: the attempt it belongs to, and the
   completion of every step that attempt depends on. -/
namespace Crashsafe
open Rows Replay Execution DependencyOrder

/-- The attempt event of a request. -/
structure Announces (e : WorkflowRunEvent) (r : SentRequest) : Prop where
  runId : e.runId = r.runId
  kind : e.eventType = .stepAttemptStarted
  stepId : e.stepId = some r.stepId
  attempt : e.attempt = some r.attempt
  payload : ∃ started : StepAttemptStartedPayload, e.payload = some (.stepAttemptStarted started) ∧
    started.operation = r.operation ∧ started.request = r.request ∧
    started.operationKey = r.operationKey

def Announced (db : Database) (r : SentRequest) : Prop :=
  ∃ e ∈ db.eventsOf r.runId, Announces e r

def StepCompleted (db : Database) (runId stepId : String) : Prop :=
  ∃ row ∈ db.stepsOf runId, row.id = stepId ∧ row.status = .completed

/-- Nothing that the step names as a dependency is left to do. -/
def DependenciesCompleted (db : Database) (runId stepId : String) : Prop :=
  ∀ dep ∈ dependencies (db.dependenciesOf runId) stepId, StepCompleted db runId dep

def attemptKey (r : SentRequest) : String × String × Int := (r.runId, r.stepId, r.attempt)

/- No attempt is sent twice, and none before it is on record. -/
structure Ahead (s : State) : Prop where
  attempts : ∀ p claim step, (s.pc p).attempt? = some (claim, step) → Announced s.db (requestOf step)
  sent : ∀ r ∈ s.sent, Announced s.db r
  unsent : ∀ p step, (s.pc p).unsent? = some step → attemptKey (requestOf step) ∉ s.sent.map attemptKey
  apart : ∀ p q step step', (s.pc p).unsent? = some step → (s.pc q).unsent? = some step' →
    attemptKey (requestOf step) = attemptKey (requestOf step') → p = q
  distinct : (s.sent.map attemptKey).Nodup

section Rows
variable {s : State} {runId : String} {row : StepRow}

theorem completed_stored {v : RunView} {run : WorkflowRun} (h : Consistent runId v run)
    {dep : String} (inside : dep ∈ completedIds run.steps) :
    ∃ row ∈ v.steps, row.id = dep ∧ row.status = .completed := by
  obtain ⟨step, present, completed, named⟩ := completed_ids_mem.mp inside
  obtain ⟨row, member, rfl⟩ := step_stored h present
  exact ⟨row, member, named, completed⟩

/-- What the guard of a new attempt checks. -/
theorem unblocked_dependencies (faithful : Faithful s) (member : row ∈ (s.db.view runId).steps)
    (ready : ¬ (s.db.view runId).Blocked row.id) : DependenciesCompleted s.db runId row.id := by
  obtain ⟨run, consistent⟩ := row_consistent faithful member
  intro dep needed
  exact completed_stored consistent (ready_read consistent member ready dep needed)

/-- What the history keeps of that check. -/
theorem started_dependencies (faithful : Faithful s) (member : row ∈ (s.db.view runId).steps)
    (started : row.status ≠ .pending) : DependenciesCompleted s.db runId row.id := by
  obtain ⟨run, consistent⟩ := row_consistent faithful member
  obtain ⟨_, _, created, sound⟩ := consistent_sound consistent
  intro dep needed
  exact completed_stored consistent (sound.ready _ (row_read consistent member) started dep needed)

/-- An announced attempt is not later than the last one counted in its row. -/
theorem announced_counted (faithful : Faithful s) {r : SentRequest} (announced : Announced s.db r)
    (member : row ∈ (s.db.view r.runId).steps) (named : row.id = r.stepId) :
    r.attempt ≤ row.attempts := by
  obtain ⟨e, inside, announces⟩ := announced
  obtain ⟨run, consistent⟩ := row_consistent faithful member
  obtain ⟨_, _, created, sound⟩ := consistent_sound consistent
  obtain ⟨n, count, numbers⟩ := sound.numbered _ (row_read consistent member)
  have mine : isAttemptOf row.id e = true := by
    simp [isAttemptOf, announces.kind, announces.stepId, named]
  have listed : e.attempt ∈ attemptNumbers row.id (s.db.view r.runId).events :=
    List.mem_map_of_mem (List.mem_filter.mpr ⟨inside, mine⟩)
  change attemptNumbers row.id _ = _ at numbers
  rw [numbers, announces.attempt] at listed
  obtain ⟨i, within, same⟩ := List.mem_map.mp listed
  cases same
  have bounds := mem_numbering.mp within
  change row.attempts = n at count
  omega

theorem next_unannounced (faithful : Faithful s) (member : row ∈ (s.db.view runId).steps)
    {r : SentRequest} (announced : Announced s.db r) :
    attemptKey r ≠ (runId, row.id, row.attempts + 1) := by
  intro same
  simp only [attemptKey, Prod.mk.injEq] at same
  obtain ⟨rfl, named, number⟩ := same
  have counted := announced_counted faithful announced member named.symm
  omega

end Rows

section Kept
variable {d : Deployment} {s t : State} {a : Action} {q : Nat}

theorem announced_kept (guarded : Guarded s) (effect : Effect d s a t) {r : SentRequest}
    (before : Announced s.db r) : Announced t.db r := by
  obtain ⟨e, member, announces⟩ := before
  exact ⟨e, (view_grows guarded.coherent effect r.runId).1.subset member, announces⟩

/-- The transaction that counts an attempt writes the event that announces it. -/
theorem move_announces {v w : RunView} {runId : String} {row : StepRow} {now : Datetime}
    {owner : Option String} {token : Option Int} {depends : String → List String}
    (move : RunMove runId v row now (.attempt owner token) w) (sameRun : row.runId = runId) :
    ∃ e ∈ w.events,
      Announces e (requestOf (stepFromRow depends (setAttempt (row.attempts + 1) now row))) := by
  cases move with
  | attempted _ _ runnable ready paired =>
    refine ⟨_, List.mem_append_right _ (List.mem_singleton_self _), ?_⟩
    exact ⟨sameRun.symm, rfl, rfl, rfl, _, rfl, rfl, rfl, rfl⟩

theorem attempts_announced (ahead : Ahead s) (guarded : Guarded s) (effect : Effect d s a t) (p : Nat)
    (claim : ClaimedStep) (step : StepRecord) (held : (t.pc p).attempt? = some (claim, step)) :
    Announced t.db (requestOf step) := by
  rcases attempt_effect effect held with before | ⟨now, leaseNow, row, was, _, committed, same⟩
  · exact announced_kept guarded effect (ahead.attempts p claim step before)
  · have sameRun : row.runId = claim.step.runId := (mem_ofKey.mp committed.member).2
    obtain ⟨e, member, announces⟩ := move_announces committed.move sameRun
    refine ⟨e, ?_, same ▸ announces⟩
    rw [same]
    change e ∈ (t.db.view row.runId).events
    rwa [sameRun]

/-- An attempt waits to be sent since its process recorded it. -/
theorem unsent_effect (effect : Effect d s a t) {step : StepRecord}
    (held : (t.pc q).unsent? = some step) :
    (s.pc q).unsent? = some step ∨
      ∃ runId, ∃ row ∈ (s.db.view runId).steps, t.sent = s.sent ∧
        (∀ other, other ≠ q → t.pc other = s.pc other) ∧
        attemptKey (requestOf step) = (runId, row.id, row.attempts + 1) := by
  cases effect with
  | @quiet a p pc beats forgets same => exact .inl ((goto_forgets forgets q).unsent _ held)
  | @recorded p claim now leaseNow db row was committed =>
    by_cases here : q = p
    · subst here
      simp only [goto_same, Pc.unsent?, Option.some.injEq] at held
      subst held
      have sameRun : row.runId = claim.step.runId := (mem_ofKey.mp committed.member).2
      refine .inr ⟨claim.step.runId, row, committed.member, rfl,
        fun other differs => goto_other differs, ?_⟩
      rw [← sameRun]
      rfl
    · exact .inl (by simpa [goto_other here] using held)
  | renewed => exact .inl held
  | @created p _ _ _ _ _ was _ | @granted p _ _ _ _ was _ | @sent p _ _ was
  | @resolved p _ _ _ _ _ _ was _ | @decided p _ _ _ _ _ _ _ was _ | @released p _ _ _ was _
  | @read p _ _ _ _ _ | @rebuilt p _ _ _ _ _ was _ =>
    by_cases here : q = p
    · subst here
      simp_all [Pc.unsent?]
    · exact .inl (by simpa [goto_other here] using held)

theorem unsent_attempt {pc : Pc} {step : StepRecord} (held : pc.unsent? = some step) :
    ∃ claim, pc.attempt? = some (claim, step) := by
  cases pc <;> simp_all [Pc.unsent?, Pc.attempt?]

theorem unsent_announced (ahead : Ahead s) {step : StepRecord} (held : (s.pc q).unsent? = some step) :
    Announced s.db (requestOf step) := by
  obtain ⟨claim, attempt⟩ := unsent_attempt held
  exact ahead.attempts q claim step attempt

theorem unsent_fresh (ahead : Ahead s) (faithful : Faithful s) (effect : Effect d s a t)
    {step : StepRecord} (held : (t.pc q).unsent? = some step) :
    attemptKey (requestOf step) ∉ t.sent.map attemptKey := by
  intro listed
  obtain ⟨r, member, same⟩ := List.mem_map.mp listed
  rcases unsent_effect effect held with before | ⟨runId, row, inside, kept, _, number⟩
  · rcases sent_effect effect with kept | ⟨p, claim, sender, was, _, after, _, grown⟩
    · rw [kept] at listed
      exact ahead.unsent q step before listed
    · rw [grown, List.mem_append, List.mem_singleton] at member
      rcases member with old | rfl
      · exact ahead.unsent q step before (List.mem_map.mpr ⟨r, old, same⟩)
      · obtain rfl := ahead.apart p q sender step (by rw [was]; rfl) before same
        rw [after] at held
        cases held
  · rw [kept] at member
    exact next_unannounced faithful inside (ahead.sent r member) (same.trans number)

theorem unsent_apart (ahead : Ahead s) (faithful : Faithful s) (effect : Effect d s a t) (p q : Nat)
    (step step' : StepRecord) (held : (t.pc p).unsent? = some step)
    (held' : (t.pc q).unsent? = some step')
    (same : attemptKey (requestOf step) = attemptKey (requestOf step')) : p = q := by
  by_contra differs
  rcases unsent_effect effect held with before | ⟨runId, row, inside, _, others, number⟩
  · rcases unsent_effect effect held' with before' | ⟨runId, row, inside, _, others, number⟩
    · exact differs (ahead.apart p q step step' before before' same)
    · exact next_unannounced faithful inside (unsent_announced ahead before) (same.trans number)
  · rw [others q (Ne.symm differs)] at held'
    exact next_unannounced faithful inside (unsent_announced ahead held') (same.symm.trans number)

theorem ahead_effect (ahead : Ahead s) (faithful : Faithful s) (effect : Effect d s a t) : Ahead t := by
  refine ⟨attempts_announced ahead faithful.guarded effect, ?_,
    fun p step held => unsent_fresh ahead faithful effect held, unsent_apart ahead faithful effect, ?_⟩
  · intro r member
    rcases sent_effect effect with kept | ⟨p, claim, step, was, _, _, same, grown⟩
    · exact announced_kept faithful.guarded effect (ahead.sent r (kept ▸ member))
    · rw [grown, List.mem_append, List.mem_singleton] at member
      rcases member with old | rfl
      · exact announced_kept faithful.guarded effect (ahead.sent r old)
      · rw [same]
        exact ahead.attempts p claim step (by rw [was]; rfl)
  · rcases sent_effect effect with kept | ⟨p, claim, step, was, _, _, _, grown⟩
    · rw [kept]
      exact ahead.distinct
    · have fresh := ahead.unsent p step (by rw [was]; rfl)
      rw [grown, List.map_append, List.nodup_append]
      refine ⟨ahead.distinct, List.nodup_singleton _, ?_⟩
      rintro x old y new rfl
      rw [List.map_singleton, List.mem_singleton] at new
      exact fresh (new ▸ old)

theorem ahead_reachable (reached : Reachable (step d) noRebuild State.initial s) : Ahead s := by
  have start : Ahead State.initial := by
    constructor
    case distinct => exact List.nodup_nil
    all_goals simp [State.initial, Pc.attempt?, Pc.unsent?]
  refine reachable_invariant start (fun s a t before ahead may taken => ?_) reached
  exact ahead_effect ahead (faithful_reachable before) (step_effect taken)

end Kept

section Commits
variable {d : Deployment} {s t : State} {a : Action}

/-- The one step that puts a request's event on record finds everything the step needs done. -/
theorem announcement_commits (faithful : Faithful s) (effect : Effect d s a t) {r : SentRequest}
    {e : WorkflowRunEvent} (announces : Announces e r) (absent : e ∉ s.db.eventsOf r.runId)
    (present : e ∈ t.db.eventsOf r.runId) :
    t.db.eventsOf r.runId = s.db.eventsOf r.runId ++ [e] ∧ t.sent = s.sent ∧
      ¬ Announced s.db r ∧ DependenciesCompleted s.db r.runId r.stepId := by
  change e ∉ (s.db.view r.runId).events at absent
  change e ∈ (t.db.view r.runId).events at present
  have unsent : t.sent = s.sent := by
    rcases sent_effect effect with kept | ⟨_, _, _, _, _, _, same, _⟩
    · exact kept
    · exact absurd (same ▸ present) absent
  rcases events_effect faithful.guarded effect r.runId with same | appended
  · exact absurd (same ▸ present) absent
  cases appended with
  | created p definition toolKey now was none done =>
    rw [(create_ok none done).1] at present
    have kind := announces.kind
    rw [List.mem_singleton.mp present] at kind
    cases kind
  | decided p claim step decision now row was here pair move =>
    obtain ⟨more, grown, others⟩ := move_appends move (by cases decision <;> simp [Decision.write])
    rw [grown, List.mem_append] at present
    exact absurd announces.kind (others e (present.resolve_left absent))
  | recorded p claim now row was here pair member _ move =>
    change (t.db.view r.runId).events = (s.db.view r.runId).events ++ [e] ∧ _
    generalize t.db.view r.runId = w at move present ⊢
    cases move with
    | attempted _ _ runnable ready paired =>
      have new := List.mem_singleton.mp ((List.mem_append.mp present).resolve_left absent)
      have named : row.id = r.stepId := by
        have stepId := announces.stepId
        rw [new] at stepId
        exact Option.some.inj stepId
      have number : row.attempts + 1 = r.attempt := by
        have attempt := announces.attempt
        rw [new] at attempt
        exact Option.some.inj attempt
      refine ⟨by rw [new]; rfl, unsent, fun before => ?_, ?_⟩
      · apply next_unannounced faithful member before
        rw [named, number]
        rfl
      · rw [← named]
        exact unblocked_dependencies faithful member ready

/-- The log of requests only grows. -/
theorem sent_grows (effect : Effect d s a t) : s.sent <+: t.sent := by
  rcases sent_effect effect with kept | ⟨_, _, _, _, _, _, _, grown⟩
  · rw [kept]
  · rw [grown]
    exact List.prefix_append _ _

end Commits

/-- In this run the event was committed before its request was sent, when everything the step
    depends on was COMPLETED. -/
structure WrittenAhead (d : Deployment) (config : ToolConfig) (codec : ToolCodec)
    (actions : List WorldAction) (w : World) (i : Fin w.engine.sent.length) (e : WorkflowRunEvent) :
    Prop where
  announces : Announces e (w.engine.sent.get i)
  recorded : e ∈ w.engine.db.eventsOf (w.engine.sent.get i).runId
  committed : Takes (worldStep d config codec) honest (World.initial config) actions w
    fun before _ after =>
      after.engine.db.eventsOf (w.engine.sent.get i).runId =
        before.engine.db.eventsOf (w.engine.sent.get i).runId ++ [e] ∧
      after.engine.sent.length ≤ i ∧
      DependenciesCompleted before.engine.db (w.engine.sent.get i).runId (w.engine.sent.get i).stepId

/-- The step is COMPLETED and the ledger has its side effect. -/
def Performed (w : World) (runId stepId : String) : Prop :=
  ∃ row ∈ w.engine.db.stepsOf runId, row.id = stepId ∧ row.status = .completed ∧
    ∃ e ∈ w.tool.store.sideEffects, e.operationKey = operationKey runId stepId ∧
      e.operation = row.operation

/-- Requests follow their attempts one to one, and effects follow those of the dependencies. -/
structure WriteAhead (d : Deployment) (config : ToolConfig) (codec : ToolCodec)
    (actions : List WorldAction) (w : World) : Prop where
  requests : ∃ event : Fin w.engine.sent.length → WorkflowRunEvent, Function.Injective event ∧
    ∀ i, WrittenAhead d config codec actions w i (event i)
  effects : ∀ runId, ∀ row ∈ w.engine.db.stepsOf runId, ∀ e ∈ w.tool.store.sideEffects,
    e.operationKey = operationKey runId row.id →
    ∀ dep, Needs (dependencies (w.engine.db.dependenciesOf runId)) row.id dep → Performed w runId dep

section Run
variable {d : Deployment} {config : ToolConfig} {codec : ToolCodec} {actions : List WorldAction}
  {w : World}

theorem announces_same_attempt {e : WorkflowRunEvent} {r r' : SentRequest} (first : Announces e r)
    (second : Announces e r') : attemptKey r = attemptKey r' := by
  have runs := first.runId.symm.trans second.runId
  have steps := Option.some.inj (first.stepId.symm.trans second.stepId)
  have numbers := Option.some.inj (first.attempt.symm.trans second.attempt)
  simp only [attemptKey, Prod.mk.injEq]
  exact ⟨runs, steps, numbers⟩

theorem request_written_ahead
    (ran : runWhere (worldStep d config codec) honest (World.initial config) actions = some w)
    (i : Fin w.engine.sent.length) : ∃ e, WrittenAhead d config codec actions w i e := by
  have reached := reachable_runWhere actions .start ran
  obtain ⟨e, member, announces⟩ :=
    (ahead_reachable (engine_reachable reached)).sent _ (w.engine.sent.get_mem i)
  refine ⟨e, announces, member, ?_⟩
  have begun : e ∉ (World.initial config).engine.db.eventsOf (w.engine.sent.get i).runId :=
    List.not_mem_nil
  refine takes_imp (takes_change (P := fun x =>
    e ∈ x.engine.db.eventsOf (w.engine.sent.get i).runId) actions ran begun member) ?_
  rintro u a v before may taken later ⟨absent, present⟩
  rcases world_step_engine may taken with same | ⟨moved, _, _, stepped⟩
  · rw [same] at present
    exact absurd present absent
  have engine := engine_reachable before
  obtain ⟨grown, unsent, unannounced, done⟩ :=
    announcement_commits (faithful_reachable engine) (step_effect stepped) announces absent present
  refine ⟨grown, ?_, done⟩
  by_contra early
  -- A request sent by then would be announced by then, and the event is the first to do so.
  have grows : v.engine.sent <+: w.engine.sent := by
    refine reachable_invariant (P := fun x => v.engine.sent <+: x.engine.sent) (List.prefix_refl _)
      (fun x a y _ grows may taken => ?_) later
    rcases world_step_engine may taken with same | ⟨moved, _, _, stepped⟩
    · rw [same]
      exact grows
    · exact grows.trans (sent_grows (step_effect stepped))
  have there : w.engine.sent.get i ∈ u.engine.sent := by
    rw [← unsent]
    have inside : (i : Nat) < v.engine.sent.length := Nat.lt_of_not_le early
    rw [List.get_eq_getElem, ← grows.getElem inside]
    exact List.getElem_mem inside
  exact unannounced ((ahead_reachable engine).sent _ there)

theorem performed_completed (joined : Joined codec w) {runId : String} {row : StepRow}
    (member : row ∈ w.engine.db.stepsOf runId) (completed : row.status = .completed) :
    Performed w runId row.id := by
  change row ∈ (w.engine.db.view runId).steps at member
  obtain ⟨output, _, e, inside, key, _⟩ := joined.completed runId row member completed
  have named := (joined.traced.keys runId row member).1
  obtain ⟨runId', row', member', key', operation, _⟩ := effect_of_row joined inside
  obtain ⟨rfl, rfl⟩ := row_of_key joined.traced member member'
    (named.symm.trans (key.symm.trans key'))
  exact ⟨row, member, rfl, completed, e, inside, key', operation⟩

/-- All that a started step depends on is performed, at any distance. -/
theorem needs_performed (joined : Joined codec w) {runId : String} {row : StepRow}
    (member : row ∈ w.engine.db.stepsOf runId) (started : row.status ≠ .pending) {dep : String}
    (needs : Needs (dependencies (w.engine.db.dependenciesOf runId)) row.id dep) :
    Performed w runId dep := by
  have direct : ∀ {row : StepRow}, row ∈ w.engine.db.stepsOf runId → row.status ≠ .pending →
      ∀ x ∈ dependencies (w.engine.db.dependenciesOf runId) row.id, Performed w runId x := by
    intro row member started x needed
    obtain ⟨dep, inside, rfl, completed⟩ :=
      started_dependencies joined.traced.faithful member started x needed
    exact performed_completed joined inside completed
  induction needs with
  | single needed => exact direct member started _ needed
  | tail _ needed ih =>
    obtain ⟨middle, inside, rfl, completed, _⟩ := ih
    exact direct inside (by simp [completed]) _ needed

end Run

theorem requests_written_ahead {d : Deployment} {config : ToolConfig} {codec : ToolCodec}
    {actions : List WorldAction} {w : World}
    (ran : runWhere (worldStep d config codec) honest (World.initial config) actions = some w) :
    WriteAhead d config codec actions w := by
  have reached := reachable_runWhere actions .start ran
  have joined := joined_reachable reached
  constructor
  case requests =>
    choose event ahead using request_written_ahead ran
    refine ⟨event, fun i j same => ?_, ahead⟩
    have attempts := announces_same_attempt (ahead i).announces (same ▸ (ahead j).announces)
    have distinct := (ahead_reachable (engine_reachable reached)).distinct
    have entries : (w.engine.sent.map attemptKey)[i.val]? = (w.engine.sent.map attemptKey)[j.val]? := by
      simpa using attempts
    exact Fin.ext ((List.getElem?_inj (by simp) distinct).mp entries)
  case effects =>
    intro runId row member e inside key dep needs
    obtain ⟨runId', row', member', key', _, _, started⟩ := effect_of_row joined inside
    obtain ⟨rfl, rfl⟩ := row_of_key joined.traced member member' (key.symm.trans key')
    exact needs_performed joined member started needs

section Example

/- After the late charge the account is provisioned; the tool has applied that request and
   nobody has seen the answer yet. -/
def lateProvision : List WorldAction :=
  lateCharge ++ [.engine (.beginRelease 1 40000008), .engine (.commitRelease 1),
    .engine (.beginClaim 2 40000009), .engine (.commitClaim 2 0), .engine (.beginRecord 2 40000010),
    .engine (.commitRecord 2 40000011), .engine (.send 2), .deliver 2, .tool (.find 2),
    .tool (.inject 2 false), .tool (.apply 2 "00112233445566aa" 40000012), .engine (.crash 2)]

theorem late_provision_written_ahead :
    ∃ w, runWhere (worldStep sharedWorker quietTool modelCodec) honest (World.initial quietTool)
        lateProvision = some w ∧
      w.engine.sent.map attemptKey = [("a1", "charge", 1), ("a1", "charge", 2), ("a1", "provision", 1)] ∧
      w.tool.store.sideEffects.map (·.operationKey) = ["a1:charge", "a1:provision"] ∧
      (w.engine.db.stepsOf "a1").map (·.status) = [.completed, .intentRecorded] ∧
      WriteAhead sharedWorker quietTool modelCodec lateProvision w := by
  have facts : (runWhere (worldStep sharedWorker quietTool modelCodec) honest
      (World.initial quietTool) lateProvision).map (fun w => (w.engine.sent.map attemptKey,
        w.tool.store.sideEffects.map (·.operationKey), (w.engine.db.stepsOf "a1").map (·.status))) =
      some ([("a1", "charge", 1), ("a1", "charge", 2), ("a1", "provision", 1)],
        ["a1:charge", "a1:provision"], [.completed, .intentRecorded]) := by
    decide +kernel
  obtain ⟨w, ran, facts⟩ := Option.map_eq_some_iff.mp facts
  simp only [Prod.mk.injEq] at facts
  exact ⟨w, ran, facts.1, facts.2.1, facts.2.2, requests_written_ahead ran⟩

end Example

end Crashsafe
