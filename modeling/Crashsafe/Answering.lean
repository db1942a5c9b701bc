import Crashsafe.ExactlyOnce

/- One process at work with a tool that stays up and has no failure left to inject: the request
   it sends is answered with a result. -/
namespace Crashsafe
open Rows Execution

/- The actions process `p` takes by itself, at one clock reading. -/
def Action.byAlone (p : Nat) (now : Datetime) : Action → Prop
  | .crash q | .commitClaim q _ | .send q | .commitRelease q => q = p
  | .beginClaim q t | .beginRecord q t | .commitRecord q t | .resolve q _ t | .beginDecision q t
  | .commitDecision q t | .beginRelease q t => q = p ∧ t = now
  | _ => False

/- What `uuid.uuid4().hex[:16]` can be. -/
def referenceHex (hex : String) : Prop :=
  ∃ digits : Fin 16 → Fin 16, hex = String.ofList (List.ofFn fun i => Nat.digitChar (digits i))

/- The tool neither fails nor restarts. -/
def ToolAction.up : ToolAction → Prop
  | .find _ | .inject _ _ | .answer _ => True
  | .apply _ hex _ => referenceHex hex
  | _ => False

/-- Only process `p` acts, each of its requests arrives once, and the tool is up. -/
def alone (p : Nat) (now : Datetime) (w : World) (a : WorldAction) : Prop :=
  honest w a ∧ match a with
    | .engine a => a.byAlone p now
    | .deliver request => request ∉ w.deliveries
    | .tool a => a.up

section References

theorem digit_char_inj : Function.Injective fun n : Fin 16 => Nat.digitChar n := by decide

theorem hex_inj {f g : Fin 16 → Fin 16}
    (same : List.ofFn (fun i => Nat.digitChar (f i)) = List.ofFn fun i => Nat.digitChar (g i)) :
    f = g := by
  funext i
  exact digit_char_inj (congrFun (List.ofFn_injective same) i)

/-- Fewer than `16 ^ 16` reference ids leave one to draw. -/
theorem fresh_reference (ids : List String) (operation : StepName) (room : ids.length < 16 ^ 16) :
    ∃ hex, referenceHex hex ∧ s!"{operation.value}_{hex}" ∉ ids := by
  by_contra taken
  push Not at taken
  let name (digits : Fin 16 → Fin 16) : String :=
    s!"{operation.value}_{String.ofList (List.ofFn fun i => Nat.digitChar (digits i))}"
  have there : ∀ digits, name digits ∈ ids.toFinset := fun digits =>
    List.mem_toFinset.mpr (taken _ ⟨digits, rfl⟩)
  have injective : Function.Injective name := by
    intro f g same
    have chars := congrArg String.toList same
    simp only [name, toString, String.toList_append, List.append_cancel_left_eq,
      String.toList_ofList] at chars
    exact hex_inj chars
  have counted := Finset.card_le_card_of_injOn (s := Finset.univ) name (fun digits _ => there digits)
    injective.injOn
  rw [Finset.card_univ, Fintype.card_fun, Fintype.card_fin] at counted
  exact absurd (counted.trans (List.toFinset_card_le ids)) (Nat.not_le.mpr room)

end References

section Tool
variable {config : ToolConfig} {codec : ToolCodec} {s : ToolState} {i : Nat} {call : ToolCall}
  {request : Json}

/- The failures the tool has still been told to inject. -/
def pendingFailures (s : ToolState) : Nat :=
  s.forcedFailures.toNat + if s.operationFailurePending then 1 else 0

/-- With no failure to inject, a lucky roll admits the call. -/
theorem lucky_inject (config : ToolConfig) (codec : ToolCodec) (held : s.calls[i]? = some call)
    (was : call.phase = .missed request) (calm : pendingFailures s = 0) :
    toolStep config codec s (.inject i false) = some (s.advance i call (.admitted request)) := by
  have forced : ¬ 0 < s.forcedFailures := by
    unfold pendingFailures at calm
    omega
  have pending : s.operationFailurePending = false := by
    by_contra pending
    simp [pendingFailures, pending] at calm
  simp [toolStep, held, was, ToolState.inject, forced, pending]

/-- An admitted call of a key without a row takes effect under a fresh reference. -/
theorem apply_fresh (held : s.calls[i]? = some call) (was : call.phase = .admitted request)
    (looked : s.store.lookup codec call.operation call.operationKey request = .ok none)
    (absent : ∀ e ∈ s.store.sideEffects, e.operationKey ≠ call.operationKey)
    (room : s.store.sideEffects.length < 16 ^ 16) (now : Datetime) :
    ∃ hex t result, referenceHex hex ∧ toolStep config codec s (.apply i hex now) = some t ∧
      t.calls = s.calls.set i { call with phase := .replying (.result result) } ∧
      pendingFailures t = pendingFailures s := by
  obtain ⟨hex, drawn, unused⟩ := fresh_reference (s.store.sideEffects.map (·.id)) call.operation
    (by simpa using room)
  have fresh : ¬ ∃ e ∈ s.store.sideEffects,
      e.id = s!"{call.operation.value}_{hex}" ∨ e.operationKey = call.operationKey := by
    rintro ⟨e, member, id | key⟩
    · exact unused (List.mem_map.mpr ⟨e, member, id⟩)
    · exact absent e member key
  refine ⟨hex, ?_⟩
  simp only [toolStep, held, Option.bind_some, was, ToolStore.apply, looked, if_neg fresh]
  exact ⟨_, _, drawn, rfl, rfl, rfl⟩

end Tool

section Answers
variable {d : Deployment} {config : ToolConfig} {codec : ToolCodec} {w : World} {p : Nat}
  {now : Datetime}

theorem alone_honest {w w' : World}
    (later : Reachable (worldStep d config codec) (alone p now) w w') :
    Reachable (worldStep d config codec) honest w w' :=
  reachable_weaken (fun _ _ may => may.1) later

theorem tool_moves (d : Deployment) (p : Nat) (now : Datetime) {a : ToolAction} {t : ToolState}
    (up : a.up) (taken : toolStep config codec w.tool a = some t) :
    Reachable (worldStep d config codec) (alone p now) w { w with tool := t } := by
  refine reachable_step (a := .tool a) ⟨trivial, up⟩ ?_
  cases a <;> simp_all [worldStep, ToolAction.isArrival, ToolAction.up]

/-- The process waits for an answer to this request, and call `i` carries it. -/
structure Carried (w : World) (p i : Nat) (call : ToolCall) : Prop where
  waiting : w.deliveries[i]? = (w.engine.pc p).waiting?.map Prod.snd
  inside : i < w.deliveries.length
  held : w.tool.calls[i]? = some call

theorem carried_advance {i : Nat} {call : ToolCall} {phase : Phase} {t : ToolState}
    (carried : Carried w p i call)
    (calls : t.calls = w.tool.calls.set i { call with phase := phase }) :
    Carried { w with tool := t } p i { call with phase := phase } := by
  refine ⟨carried.waiting, carried.inside, ?_⟩
  obtain ⟨inside, _⟩ := List.getElem?_eq_some_iff.mp carried.held
  change t.calls[i]? = _
  rw [calls, List.getElem?_set_self inside]

/-- The tool can answer the process without any other's help. -/
def Answered (d : Deployment) (config : ToolConfig) (codec : ToolCodec) (p : Nat) (now : Datetime)
    (w : World) : Prop :=
  ∃ w' result, Reachable (worldStep d config codec) (alone p now) w w' ∧ w'.engine = w.engine ∧
    pendingFailures w'.tool = 0 ∧ Received w' p result

theorem answered_later {w' : World} (later : Reachable (worldStep d config codec) (alone p now) w w')
    (same : w'.engine = w.engine) (answered : Answered d config codec p now w') :
    Answered d config codec p now w := by
  obtain ⟨w'', result, further, same', told⟩ := answered
  exact ⟨w'', result, reachable_trans later further, same'.trans same, told⟩

theorem replying_answered {i : Nat} {call : ToolCall} {result : ToolResult}
    (carried : Carried w p i call) (was : call.phase = .replying (.result result))
    (calm : pendingFailures w.tool = 0) : Answered d config codec p now w := by
  have taken : toolStep config codec w.tool (.answer i) =
      some (w.tool.advance i call (.answered (.result result))) := by
    simp [toolStep, carried.held, was]
  have after := carried_advance carried (t := w.tool.advance i call (.answered (.result result))) rfl
  refine ⟨_, result, tool_moves d p now (a := .answer i) trivial taken, rfl, calm, i, carried.inside,
    carried.waiting, ?_⟩
  rw [after.held]
  rfl

theorem admitted_answered {i : Nat} {call : ToolCall} {request : Json} (sound : ToolSound codec w.tool)
    (carried : Carried w p i call) (was : call.phase = .admitted request)
    (looked : w.tool.store.lookup codec call.operation call.operationKey request = .ok none)
    (room : w.tool.store.sideEffects.length < 16 ^ 16) (calm : pendingFailures w.tool = 0) :
    Answered d config codec p now w := by
  obtain ⟨hex, t, result, drawn, taken, calls, same⟩ := apply_fresh carried.held was looked
    (lookup_none sound.matched looked) room now
  have applied := tool_moves d p now (a := .apply i hex now) drawn taken
  exact answered_later applied rfl (replying_answered (carried_advance carried calls) rfl (same.trans calm))

/-- A call that has arrived is looked up, perhaps applied, and answered. -/
theorem started_answered (now : Datetime) {i : Nat} {call : ToolCall} {request : Json}
    (reached : Reachable (worldStep d config codec) honest (World.initial config) w)
    (carried : Carried w p i call) (was : call.phase = .started request)
    (room : w.tool.store.sideEffects.length < 16 ^ 16) (calm : pendingFailures w.tool = 0) :
    Answered d config codec p now w := by
  cases looked : w.tool.store.lookup codec call.operation call.operationKey request with
  | error e =>
    have found : toolStep config codec w.tool (.find i) =
        some (w.tool.advance i call (.replying conflictReply)) := by
      simp [toolStep, carried.held, was, ToolStore.find, looked]
    have conflicted := tool_moves d p now (a := .find i) trivial found
    have joined := joined_reachable (reachable_trans reached (alone_honest conflicted))
    have after := carried_advance carried (t := w.tool.advance i call (.replying conflictReply)) rfl
    refine absurd ?_ (joined.unconflicted i)
    rw [ToolState.reply?, after.held]
    rfl
  | ok saved =>
    cases saved with
    | some committed =>
      have found : toolStep config codec w.tool (.find i) =
          some (w.tool.advance i call (.replying (.result committed))) := by
        simp [toolStep, carried.held, was, ToolStore.find, looked]
      have replied := tool_moves d p now (a := .find i) trivial found
      exact answered_later replied rfl (replying_answered (carried_advance carried rfl) rfl calm)
    | none =>
      have found : toolStep config codec w.tool (.find i) =
          some (w.tool.advance i call (.missed request)) := by
        simp [toolStep, carried.held, was, ToolStore.find, looked]
      have missed := tool_moves d p now (a := .find i) trivial found
      have after := carried_advance carried (t := w.tool.advance i call (.missed request)) rfl
      have admitted := tool_moves d p now (w := { w with tool := w.tool.advance i call (.missed request) })
        (a := .inject i false) trivial (lucky_inject config codec after.held rfl calm)
      have later := reachable_trans missed admitted
      have joined := joined_reachable (reachable_trans reached (alone_honest later))
      exact answered_later later rfl
        (admitted_answered joined.sound (carried_advance after rfl) rfl looked room calm)

/-- Each effect is that of a step of its own. -/
theorem effects_bounded (joined : Joined codec w) :
    w.tool.store.sideEffects.length ≤ w.engine.db.steps.length := by
  have inside : w.tool.store.sideEffects.map (·.operationKey) ⊆
      w.engine.db.steps.map (·.operationKey) := by
    intro key there
    obtain ⟨e, member, rfl⟩ := List.mem_map.mp there
    obtain ⟨runId, row, stored, named, _⟩ := effect_of_row joined member
    have key := (joined.traced.keys runId row stored).1
    exact List.mem_map.mpr ⟨row, (mem_ofKey.mp stored).1, key.trans named.symm⟩
  have bounded := (List.subperm_of_subset joined.sound.keys inside).length_le
  simpa using bounded

/-- What a process waits to hear about validates at the tool. -/
theorem waiting_validates (revalidates : Revalidates codec) (joined : Joined codec w)
    {claim : ClaimedStep} {tried : StepRecord} {k : Nat}
    (waits : w.engine.pc p = .waiting claim tried k) :
    w.engine.sent[k]? = some (requestOf tried) ∧
      ∃ request, codec.modelValidate tried.operation tried.request = some request := by
  have attempt : (w.engine.pc p).attempt? = some (claim, tried) := by rw [waits]; rfl
  obtain ⟨row, member, _, operation, request, _⟩ := joined.traced.attempts p claim tried attempt
  obtain ⟨q, accepted, sameOperation, sameRequest⟩ :=
    (joined.traced.faithful.guarded.coherent.tidy _).submitted row member
  refine ⟨joined.traced.waiting p tried k (by rw [waits]; rfl), q.modelDump, ?_⟩
  have operation : row.operation = tried.operation := operation
  have request : row.request = tried.request := request
  rw [← operation, ← request, sameOperation, sameRequest]
  exact revalidates q accepted

/-- The request a process has just sent is delivered and answered. -/
theorem waiting_answered (now : Datetime) (revalidates : Revalidates codec)
    (reached : Reachable (worldStep d config codec) honest (World.initial config) w)
    {claim : ClaimedStep} {tried : StepRecord} {k : Nat}
    (waits : w.engine.pc p = .waiting claim tried k) (fresh : k ∉ w.deliveries)
    (room : w.tool.store.sideEffects.length < 16 ^ 16) (calm : pendingFailures w.tool = 0) :
    Answered d config codec p now w := by
  have joined := joined_reachable reached
  obtain ⟨sent, request, valid⟩ := waiting_validates revalidates joined waits
  let call : ToolCall := ⟨tried.operation, tried.operationKey, tried.request, .started request⟩
  let arrived : World :=
    { w with tool := { w.tool with calls := w.tool.calls ++ [call] }, deliveries := w.deliveries ++ [k] }
  have taken : worldStep d config codec w (.deliver k) = some arrived := by
    simp [worldStep, sent, toolStep, requestOf, valid, arrived, call]
  have delivered : Reachable (worldStep d config codec) (alone p now) w arrived :=
    reachable_step (a := .deliver k) ⟨trivial, fresh⟩ taken
  have carried : Carried arrived p w.tool.calls.length call := by
    refine ⟨?_, ?_, ?_⟩
    · simp [arrived, waits, Pc.waiting?, ← joined.lengths]
    · simp [arrived, ← joined.lengths]
    · simp [arrived]
  have there := reachable_trans reached (alone_honest delivered)
  exact answered_later delivered rfl (started_answered now there carried rfl room calm)

/-- Only requests that were sent have been delivered. -/
theorem delivered_sent (joined : Joined codec w) {k : Nat} (delivered : k ∈ w.deliveries) :
    k < w.engine.sent.length := by
  obtain ⟨i, inside, held⟩ := List.getElem_of_mem delivered
  have called := List.getElem?_eq_getElem (joined.lengths ▸ inside : i < w.tool.calls.length)
  obtain ⟨_, sent, _⟩ := joined.calls i k _ (held ▸ List.getElem?_eq_getElem inside) called
  exact (List.getElem?_eq_some_iff.mp sent).1

end Answers

end Crashsafe
