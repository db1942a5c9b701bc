import Crashsafe.Requests
import Crashsafe.Idempotency

/- The workers and the mock tool together: two databases, and the requests and replies that go
   between them. A request may be delivered at any time after it was sent, and its reply may
   never be seen. -/
namespace Crashsafe
open Rows Execution

/- `deliveries` says which request each call of the tool carries. -/
structure World where
  engine : State
  tool : ToolState
  deliveries : List Nat

def World.initial (config : ToolConfig) : World := ⟨State.initial, ToolState.initial config, []⟩

inductive WorldAction where
  | engine (a : Action)
  | deliver (request : Nat)
  | tool (a : ToolAction)

def ToolAction.isArrival : ToolAction → Bool
  | .arrive .. => true
  | _ => false

def worldStep (d : Deployment) (config : ToolConfig) (codec : ToolCodec) (w : World) :
    WorldAction → Option World
  | .engine a => (step d w.engine a).map fun engine => { w with engine := engine }
  | .deliver request => w.engine.sent[request]?.bind fun r =>
    (toolStep config codec w.tool (.arrive r.operation r.operationKey r.request)).map fun tool =>
      { w with tool := tool, deliveries := w.deliveries ++ [request] }
  | .tool a =>
    if a.isArrival then none
    else (toolStep config codec w.tool a).map fun tool => { w with tool := tool }

/-- The tool has answered the request a process waits for with this result. -/
def Received (w : World) (p : Nat) (result : ToolResult) : Prop :=
  ∃ i < w.deliveries.length, w.deliveries[i]? = (w.engine.pc p).waiting?.map Prod.snd ∧
    w.tool.calls[i]?.bind (·.phase.answered?) = some (.result result)

instance (w : World) (p : Nat) (result : ToolResult) : Decidable (Received w p result) :=
  inferInstanceAs (Decidable (∃ i < w.deliveries.length, _))

/-- No projection is rebuilt, and the gateway returns only a result that the tool answered. -/
def honest (w : World) : WorldAction → Prop
  | .engine (.readHistory ..) => False
  | .engine (.resolve p (.result result) _) => Received w p result
  | _ => True

instance (w : World) (a : WorldAction) : Decidable (honest w a) := by
  unfold honest
  split <;> infer_instance

/-- The stored output reports the effect recorded under the key. -/
def Reported (store : ToolStore) (key : String) (output : Json) : Prop :=
  ∃ e ∈ store.sideEffects, e.operationKey = key ∧ ∃ result : ToolResult,
    output = result.modelDump ∧ result.operation = e.operation ∧ result.referenceId = e.id

/- The invariant that ties the two databases and the requests between them together. -/
structure Joined (codec : ToolCodec) (w : World) : Prop where
  traced : Traced w.engine
  sound : ToolSound codec w.tool
  lengths : w.deliveries.length = w.tool.calls.length
  calls : ∀ (i request : Nat) (call : ToolCall), w.deliveries[i]? = some request →
    w.tool.calls[i]? = some call → ∃ r, w.engine.sent[request]? = some r ∧
      call.operation = r.operation ∧ call.operationKey = r.operationKey ∧ call.payload = r.request
  outputs : ∀ p step output, (w.engine.pc p).decision? = some (step, .complete output) →
    Reported w.tool.store step.operationKey output
  completed : ∀ runId, ∀ row ∈ (w.engine.db.view runId).steps, row.status = .completed →
    ∃ output, row.output = some output ∧ Reported w.tool.store row.operationKey output
  unconflicted : ∀ i, w.tool.reply? i ≠ some conflictReply

section Persistence
variable {codec : ToolCodec} {w : World}

/-- Every call of the tool carries the request persisted with one step. -/
theorem call_persisted (joined : Joined codec w) {i : Nat} {call : ToolCall}
    (held : w.tool.calls[i]? = some call) :
    ∃ runId, ∃ row ∈ (w.engine.db.view runId).steps, uuidText runId = true ∧
      call.operationKey = operationKey runId row.id ∧ call.operation = row.operation ∧
      call.payload = row.request ∧ row.status ≠ .pending := by
  obtain ⟨inside, _⟩ := List.getElem?_eq_some_iff.mp held
  have delivered : i < w.deliveries.length := by rwa [joined.lengths]
  obtain ⟨r, there, operation, key, payload⟩ :=
    joined.calls i w.deliveries[i] call (List.getElem?_eq_getElem delivered) held
  obtain ⟨row, member, id, sameOperation, sameRequest, sameKey, started⟩ :=
    joined.traced.sent r (List.mem_of_getElem? there)
  obtain ⟨rowKey, named⟩ := joined.traced.keys r.runId row member
  exact ⟨r.runId, row, member, named, by rw [key, ← sameKey, rowKey],
    operation.trans sameOperation.symm, payload.trans sameRequest.symm, started⟩

/-- A key belongs to one row. -/
theorem row_of_key (traced : Traced w.engine) {runId runId' : String} {row row' : StepRow}
    (member : row ∈ (w.engine.db.view runId).steps) (member' : row' ∈ (w.engine.db.view runId').steps)
    (same : operationKey runId row.id = operationKey runId' row'.id) : runId = runId' ∧ row = row' := by
  obtain ⟨runs, steps⟩ := operation_key_inj (traced.keys runId row member).2
    (traced.keys runId' row' member').2 same
  subst runs
  exact ⟨rfl, List.inj_on_of_nodup_map (traced.faithful.guarded.coherent.tidy runId).distinct member
    member' steps⟩

/-- An effect is that of the row its key names. -/
theorem effect_of_row (joined : Joined codec w) {e : SideEffect}
    (member : e ∈ w.tool.store.sideEffects) :
    ∃ runId, ∃ row ∈ (w.engine.db.view runId).steps,
      e.operationKey = operationKey runId row.id ∧ e.operation = row.operation ∧
      codec.modelValidate row.operation row.request = some e.request ∧ row.status ≠ .pending := by
  obtain ⟨i, call, held, operation, key, valid⟩ := joined.sound.origin e member
  obtain ⟨runId, row, inside, _, named, sameOperation, payload, started⟩ := call_persisted joined held
  refine ⟨runId, row, inside, key.symm.trans named, operation.symm.trans sameOperation, ?_, started⟩
  rw [← sameOperation, operation, ← payload]
  exact valid

/-- Two requests under one key are the same request, so none conflicts with the ledger. -/
theorem no_conflict (joined : Joined codec w) {i : Nat} {call : ToolCall} {request : Json}
    (held : w.tool.calls[i]? = some call) (holds : call.phase.request? = some request) :
    ¬ Conflicting w.tool.store call request := by
  rintro ⟨e, member, key, differs⟩
  obtain ⟨runId, row, inside, _, named, operation, payload, _⟩ := call_persisted joined held
  obtain ⟨runId', row', inside', named', operation', valid, _⟩ := effect_of_row joined member
  obtain ⟨_, rfl⟩ := row_of_key joined.traced inside inside' (named.symm.trans (key.symm.trans named'))
  have sound := joined.sound.requests i call request held holds
  rw [operation, payload, valid] at sound
  exact differs.elim (fun d => d (operation'.trans operation.symm)) (fun d => d (Option.some.inj sound))

end Persistence

section Kept
variable {d : Deployment} {config : ToolConfig} {codec : ToolCodec} {w : World} {s : State} {a : Action}

theorem reported_grows {store store' : ToolStore}
    (grows : ∀ e ∈ store.sideEffects, e ∈ store'.sideEffects) {key : String} {output : Json}
    (before : Reported store key output) : Reported store' key output := by
  obtain ⟨e, member, told⟩ := before
  exact ⟨e, grows e member, told⟩

theorem complete_result {settings : Settings} {step : StepRecord} {now : Datetime} {outcome : Outcome}
    {output : Json} (chosen : decideOutcome settings step now outcome = some (.complete output)) :
    ∃ result, outcome = .result result ∧ output = result.modelDump := by
  cases outcome with
  | result result =>
    simp only [decideOutcome, Option.some.injEq, Decision.complete.injEq] at chosen
    exact ⟨result, rfl, chosen.symm⟩
  | retryable message retryAfterSeconds throttleTool =>
    simp only [decideOutcome, handleRetryableFailure] at chosen
    split at chosen
    · cases chosen
    · split at chosen
      · cases chosen
      · simp at chosen
  | permanent message => cases chosen
  | raised => cases chosen

theorem outputs_engine (joined : Joined codec w) (effect : Effect d w.engine a s)
    (may : honest w (.engine a)) (p : Nat) (step : StepRecord) (output : Json)
    (held : (s.pc p).decision? = some (step, .complete output)) :
    Reported w.tool.store step.operationKey output := by
  rcases decision_effect effect held with before | ⟨claim, request, outcome, now, was, acted, _, _, chosen⟩
  · exact joined.outputs p step output before
  · obtain ⟨result, rfl, dumped⟩ := complete_result chosen
    subst acted
    obtain ⟨i, inside, delivered, answered⟩ := may
    simp only [was, Pc.waiting?, Option.map_some] at delivered
    obtain ⟨call, there, told⟩ := Option.bind_eq_some_iff.mp answered
    have replied : call.phase.reply? = some (.result result) := by
      cases phase : call.phase <;> simp_all [Phase.answered?, Phase.reply?]
    have sent := joined.traced.waiting p step request (by rw [was]; rfl)
    obtain ⟨r, same, _, key, _⟩ := joined.calls i request call delivered there
    rw [sent, Option.some.injEq] at same
    subst same
    obtain ⟨e, member, effectKey, _, operation, reference⟩ :=
      joined.sound.results i call result ⟨there, replied⟩
    exact ⟨e, member, effectKey.trans key, result, dumped, operation, reference⟩

theorem completed_engine (joined : Joined codec w) (effect : Effect d w.engine a s) (runId : String) :
    ∀ row ∈ (s.db.view runId).steps, row.status = .completed →
      ∃ output, row.output = some output ∧ Reported w.tool.store row.operationKey output := by
  have traced := joined.traced
  have guarded := traced.faithful.guarded
  intro row member completed
  rcases row_after guarded effect member with old | ⟨old, now, write, inside, written, move, mover⟩ | fresh
  · exact joined.completed runId row old completed
  · subst written
    cases mover with
    | recorded => simp [Write.set, setAttempt] at completed
    | decided p claim step decision now' leaseNow was after here named pair =>
      cases decision with
      | retry => simp [Write.set, Decision.write, setRetry] at completed
      | fail => simp [Write.set, Decision.write, setFailed] at completed
      | complete output =>
        have reported := joined.outputs p step output (by rw [was]; rfl)
        have sameRun : step.runId = runId :=
          (guarded.coherent.attempts p claim step (by rw [was]; rfl)).trans here
        obtain ⟨persisted, there, id, _, _, key, _⟩ := traced.attempts p claim step (by rw [was]; rfl)
        change persisted ∈ (w.engine.db.view step.runId).steps at there
        rw [sameRun] at there
        have self : persisted = old := List.inj_on_of_nodup_map (guarded.coherent.tidy runId).distinct
          there inside (id.trans named)
        subst self
        refine ⟨output, rfl, ?_⟩
        change Reported w.tool.store persisted.operationKey output
        rw [key]
        exact reported
  · exact absurd completed (by simp [fresh.1.pending])

theorem joined_engine (joined : Joined codec w) (traced : Traced s) (may : honest w (.engine a))
    (effect : Effect d w.engine a s) : Joined codec { w with engine := s } := by
  refine ⟨traced, joined.sound, joined.lengths, ?_, ?_, ?_, joined.unconflicted⟩
  · intro i request call delivered held
    obtain ⟨r, there, same⟩ := joined.calls i request call delivered held
    refine ⟨r, ?_, same⟩
    rcases sent_effect effect with kept | ⟨_, _, _, _, _, _, _, grown⟩
    · exact kept ▸ there
    · obtain ⟨inside, _⟩ := List.getElem?_eq_some_iff.mp there
      change s.sent[request]? = some r
      rw [grown, List.getElem?_append_left inside, there]
  · exact outputs_engine (w := w) joined effect may
  · exact completed_engine (w := w) joined effect

theorem joined_deliver (joined : Joined codec w) {request : Nat} {r : SentRequest} {tool : ToolState}
    (sent : w.engine.sent[request]? = some r)
    (taken : toolStep config codec w.tool (.arrive r.operation r.operationKey r.request) = some tool) :
    Joined codec { w with tool := tool, deliveries := w.deliveries ++ [request] } := by
  have sound := tool_sound_effect joined.sound (tool_step_effect taken)
  cases tool_step_effect taken with
  | found held decides | conflicted held decides =>
    rcases decides with ⟨acts, _⟩ | ⟨_, _, acts, _⟩ <;> cases acts
  | @arrived operation operationKey payload phase fresh =>
    refine ⟨joined.traced, sound, by simp [joined.lengths], ?_, joined.outputs, joined.completed, ?_⟩
    · intro i request' call delivered held
      rcases Nat.lt_or_ge i w.tool.calls.length with old | new
      · rw [List.getElem?_append_left (joined.lengths ▸ old)] at delivered
        rw [List.getElem?_append_left old] at held
        exact joined.calls i request' call delivered held
      · rw [List.getElem?_append_right (joined.lengths ▸ new)] at delivered
        rw [List.getElem?_append_right new] at held
        have last := List.mem_singleton.mp (List.mem_of_getElem? held)
        have last' := List.mem_singleton.mp (List.mem_of_getElem? delivered)
        subst last last'
        exact ⟨r, sent, rfl, rfl, rfl⟩
    · intro i
      rcases Nat.lt_or_ge i w.tool.calls.length with old | new
      · have before := joined.unconflicted i
        simpa [ToolState.reply?, List.getElem?_append_left old] using before
      · intro replied
        obtain ⟨call, held, holds⟩ := Option.bind_eq_some_iff.mp replied
        rw [List.getElem?_append_right new] at held
        have last := List.mem_singleton.mp (List.mem_of_getElem? held)
        subst last
        rcases fresh with ⟨_, _, started⟩ | failed
        · simp [started, Phase.reply?] at holds
        · simp [failed, Phase.reply?, errorReply, conflictReply] at holds

theorem joined_tool (joined : Joined codec w) {a : ToolAction} {tool : ToolState}
    (internal : a.isArrival = false) (taken : toolStep config codec w.tool a = some tool) :
    Joined codec { w with tool := tool } := by
  have effect := tool_step_effect taken
  have grows := effects_grow effect
  have inside : ∀ operation operationKey payload, a ≠ .arrive operation operationKey payload := by
    rintro operation operationKey payload rfl
    cases internal
  refine ⟨joined.traced, tool_sound_effect joined.sound effect, ?_, ?_, ?_, ?_, ?_⟩
  · exact joined.lengths.trans (calls_length effect inside).symm
  · intro i request call delivered held
    rcases call_after effect held with ⟨y, phase, there, _, rfl⟩ | ⟨new, _⟩
    · exact joined.calls i request y delivered there
    · obtain ⟨short, _⟩ := List.getElem?_eq_some_iff.mp delivered
      rw [← joined.lengths] at new
      exact absurd short (Nat.not_lt.mpr new)
  · exact fun p step output held => reported_grows grows (joined.outputs p step output held)
  · intro runId row member completed
    obtain ⟨output, stored, reported⟩ := joined.completed runId row member completed
    exact ⟨output, stored, reported_grows grows reported⟩
  · intro i replied
    obtain ⟨x, held, holds⟩ := Option.bind_eq_some_iff.mp replied
    obtain ⟨bound, _⟩ := List.getElem?_eq_some_iff.mp held
    rw [calls_length effect inside] at bound
    have there := List.getElem?_eq_getElem bound
    have before : w.tool.calls[i].phase.reply? ≠ some conflictReply := by
      have unconflicted := joined.unconflicted i
      rwa [ToolState.reply?, there, Option.bind_some] at unconflicted
    obtain ⟨request, decides, conflict⟩ := conflict_sound joined.sound effect there before replied
    refine no_conflict joined there ?_ conflict
    rcases decides with ⟨_, was⟩ | ⟨_, _, _, was⟩ <;> rw [was] <;> rfl

theorem joined_start : Joined codec (World.initial config) := by
  refine ⟨traced_start, tool_sound_start, rfl, ?_, ?_, ?_, ?_⟩
  · intro i request call delivered
    cases delivered
  · intro p step output held
    cases held
  · intro runId row member
    cases member
  · intro i replied
    cases replied

/-- A step of the world is one of the engine, no rebuild, or leaves the engine alone. -/
theorem world_step_engine {w w' : World} {a : WorldAction} (may : honest w a)
    (taken : worldStep d config codec w a = some w') :
    w'.engine = w.engine ∨
      ∃ moved, a = .engine moved ∧ noRebuild w.engine moved ∧ step d w.engine moved = some w'.engine := by
  cases a with
  | engine moved =>
    obtain ⟨s, stepped, rfl⟩ := Option.map_eq_some_iff.mp taken
    refine .inr ⟨moved, rfl, ?_, stepped⟩
    rintro p runId rfl
    exact may
  | deliver request =>
    obtain ⟨r, _, taken⟩ := Option.bind_eq_some_iff.mp taken
    obtain ⟨tool, _, rfl⟩ := Option.map_eq_some_iff.mp taken
    exact .inl rfl
  | tool a =>
    simp only [worldStep] at taken
    split at taken
    · cases taken
    · obtain ⟨tool, _, rfl⟩ := Option.map_eq_some_iff.mp taken
      exact .inl rfl

theorem engine_reachable
    (reached : Reachable (worldStep d config codec) honest (World.initial config) w) :
    Reachable (step d) noRebuild State.initial w.engine := by
  refine reachable_project World.engine (fun w a w' _ may taken => ?_) reached
  rcases world_step_engine may taken with same | ⟨moved, _, quiet, stepped⟩
  · exact .inl same
  · exact .inr ⟨moved, quiet, stepped⟩

theorem joined_step {w w' : World} {a : WorldAction} (joined : Joined codec w) (may : honest w a)
    (reached : Reachable (step d) noRebuild State.initial w'.engine)
    (taken : worldStep d config codec w a = some w') : Joined codec w' := by
  cases a with
  | engine a =>
    obtain ⟨s, moved, rfl⟩ := Option.map_eq_some_iff.mp taken
    exact joined_engine joined (traced_reachable reached) may (step_effect moved)
  | deliver request =>
    obtain ⟨r, sent, taken⟩ := Option.bind_eq_some_iff.mp taken
    obtain ⟨tool, arrived, rfl⟩ := Option.map_eq_some_iff.mp taken
    exact joined_deliver joined sent arrived
  | tool a =>
    simp only [worldStep] at taken
    split at taken
    · cases taken
    · rename_i inside
      obtain ⟨tool, moved, rfl⟩ := Option.map_eq_some_iff.mp taken
      exact joined_tool joined (by simpa using inside) moved

theorem joined_reachable
    (reached : Reachable (worldStep d config codec) honest (World.initial config) w) :
    Joined codec w := by
  refine reachable_invariant joined_start (fun w a w' before joined may taken => ?_) reached
  exact joined_step joined may (engine_reachable (.next before may taken)) taken

end Kept

end Crashsafe
