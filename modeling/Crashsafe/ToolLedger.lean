import Crashsafe.MockTool

/- What the mock tool keeps under every interleaving of its calls: one effect for a key, the
   cached result that belongs to it, and replies that tell of no other. -/
namespace Crashsafe
open Execution

/-- The action is the lookup of call `i`, in `find` or in `apply`. -/
def Deciding (a : ToolAction) (i : Nat) (call : ToolCall) (request : Json) : Prop :=
  (a = .find i ∧ call.phase = .started request) ∨
    ∃ hex now, a = .apply i hex now ∧ call.phase = .admitted request

/-- Everything a step may have done to the tool. -/
inductive ToolEffect (config : ToolConfig) (codec : ToolCodec) (s : ToolState) :
    ToolAction → ToolState → Prop where
  | arrived {operation : StepName} {operationKey : String} {payload : Json} {phase : Phase}
      (fresh : (∃ request, codec.modelValidate operation payload = some request ∧
        phase = .started request) ∨ phase = .replying errorReply) :
      ToolEffect config codec s (.arrive operation operationKey payload)
        { s with calls := s.calls ++ [⟨operation, operationKey, payload, phase⟩] }
  | missed {i : Nat} {call : ToolCall} {request : Json} (held : s.calls[i]? = some call)
      (was : call.phase = .started request)
      (looked : s.store.lookup codec call.operation call.operationKey request = .ok none) :
      ToolEffect config codec s (.find i) (s.advance i call (.missed request))
  | found {a : ToolAction} {i : Nat} {call : ToolCall} {request : Json} {result : ToolResult}
      (held : s.calls[i]? = some call) (decides : Deciding a i call request)
      (looked : s.store.lookup codec call.operation call.operationKey request = .ok (some result)) :
      ToolEffect config codec s a (s.advance i call (.replying (.result result)))
  | conflicted {a : ToolAction} {i : Nat} {call : ToolCall} {request : Json} {e : ToolError}
      (held : s.calls[i]? = some call) (decides : Deciding a i call request)
      (looked : s.store.lookup codec call.operation call.operationKey request = .error e) :
      ToolEffect config codec s a (s.advance i call (.replying conflictReply))
  | collided {i : Nat} {call : ToolCall} {request : Json} {hex : String} {now : Datetime}
      (held : s.calls[i]? = some call) (was : call.phase = .admitted request)
      (looked : s.store.lookup codec call.operation call.operationKey request = .ok none) :
      ToolEffect config codec s (.apply i hex now) (s.advance i call (.replying errorReply))
  | applied {i : Nat} {call : ToolCall} {request : Json} {hex id : String} {now : Datetime}
      (held : s.calls[i]? = some call) (was : call.phase = .admitted request)
      (looked : s.store.lookup codec call.operation call.operationKey request = .ok none)
      (fresh : ∀ e ∈ s.store.sideEffects, e.id ≠ id ∧ e.operationKey ≠ call.operationKey) :
      ToolEffect config codec s (.apply i hex now)
        { s.advance i call (.replying (.result ⟨call.operation, id, false⟩)) with
          store :=
            { idempotencyResults := s.store.idempotencyResults ++
                [⟨call.operationKey, call.operation, codec.requestHash request,
                  ⟨call.operation, id, false⟩, now⟩]
              sideEffects := s.store.sideEffects ++
                [⟨id, call.operationKey, call.operation, request, now⟩] } }
  | injected {i : Nat} {call : ToolCall} {request : Json} {roll pending : Bool} {phase : Phase}
      {failures : Int} (held : s.calls[i]? = some call) (was : call.phase = .missed request)
      (outcome : phase = .admitted request ∨ phase = .replying (throttledReply config.retryAfter)) :
      ToolEffect config codec s (.inject i roll)
        { s.advance i call phase with
          forcedFailures := failures, operationFailurePending := pending }
  | answered {i : Nat} {call : ToolCall} {reply : Reply} (held : s.calls[i]? = some call)
      (was : call.phase = .replying reply) :
      ToolEffect config codec s (.answer i) (s.advance i call (.answered reply))
  | failed {i : Nat} {call : ToolCall} (held : s.calls[i]? = some call) :
      ToolEffect config codec s (.fail i) (s.advance i call (.replying errorReply))
  | crashed {lose : ToolCall → ToolCall}
      (loses : ∀ call, lose call = call ∨ lose call = { call with phase := .lost }) :
      ToolEffect config codec s .crash
        { ToolState.initial config with store := s.store, calls := s.calls.map lose }

section Step
variable {config : ToolConfig} {codec : ToolCodec} {s t : ToolState} {a : ToolAction}

theorem lookup_refusal {store : ToolStore} {operation : StepName} {operationKey : String}
    {request : Json} {e : ToolError}
    (looked : store.lookup codec operation operationKey request = .error e) :
    e = .idempotencyConflict operationKey := by
  unfold ToolStore.lookup at looked
  split at looked
  · cases looked
  · split at looked
    · cases looked
      rfl
    · cases looked

theorem apply_effect {i : Nat} {call : ToolCall} {request : Json} {hex : String} {now : Datetime}
    (held : s.calls[i]? = some call) (was : call.phase = .admitted request)
    (h : toolStep config codec s (.apply i hex now) = some t) :
    ToolEffect config codec s (.apply i hex now) t := by
  have decides : Deciding (.apply i hex now) i call request := .inr ⟨hex, now, rfl, was⟩
  simp only [toolStep, held, Option.bind_some, was] at h
  cases looked : s.store.lookup codec call.operation call.operationKey request with
  | error e =>
    obtain rfl := lookup_refusal looked
    simp only [ToolStore.apply, looked, Option.some.injEq] at h
    subst h
    exact .conflicted held decides looked
  | ok found =>
    cases found with
    | some saved =>
      simp only [ToolStore.apply, looked, Option.some.injEq] at h
      subst h
      exact .found held decides looked
    | none =>
      simp only [ToolStore.apply, looked] at h
      split at h
      · rename_i refused
        split at refused
        · cases refused
        · cases refused
      · rename_i refused
        cases h
        exact .collided held was looked
      · rename_i stored
        split at stored
        · cases stored
        · rename_i fresh
          cases stored
          cases h
          push Not at fresh
          exact .applied held was looked fresh

theorem tool_step_effect (h : toolStep config codec s a = some t) :
    ToolEffect config codec s a t := by
  cases a with
  | arrive operation operationKey payload =>
    simp only [toolStep, Option.some.injEq] at h
    subst h
    refine .arrived ?_
    cases validated : codec.modelValidate operation payload with
    | none => exact .inr rfl
    | some request => exact .inl ⟨request, rfl, rfl⟩
  | find i =>
    obtain ⟨call, held, taken⟩ := Option.bind_eq_some_iff.mp h
    split at taken
    · rename_i request was
      have decides : Deciding (.find i) i call request := .inl ⟨rfl, was⟩
      split at taken
      · rename_i looked
        cases taken
        exact .conflicted held decides looked
      · rename_i looked
        cases taken
        exact .found held decides looked
      · rename_i looked
        cases taken
        exact .missed held was looked
    · cases taken
  | inject i roll =>
    obtain ⟨call, held, taken⟩ := Option.bind_eq_some_iff.mp h
    split at taken
    · rename_i request was
      cases taken
      unfold ToolState.inject
      split
      · exact .injected held was (.inr rfl)
      · split
        · exact .injected held was (.inr rfl)
        · split
          · exact .injected held was (.inr rfl)
          · exact .injected held was (.inl rfl)
    · cases taken
  | apply i hex now =>
    obtain ⟨call, held, taken⟩ := Option.bind_eq_some_iff.mp h
    split at taken
    · rename_i request was
      exact apply_effect held was h
    · cases taken
  | answer i =>
    obtain ⟨call, held, taken⟩ := Option.bind_eq_some_iff.mp h
    split at taken
    · rename_i reply was
      cases taken
      exact .answered held was
    · cases taken
  | fail i =>
    obtain ⟨call, held, taken⟩ := Option.bind_eq_some_iff.mp h
    split at taken
    · cases taken
    · cases taken
    · cases taken
      exact .failed held
  | crash =>
    cases h
    refine .crashed fun call => ?_
    split
    · exact .inl rfl
    · exact .inr rfl

/- What the effects say of single calls. -/

theorem advance_get {i j : Nat} {call x : ToolCall} {phase : Phase} (held : s.calls[i]? = some call)
    (here : (s.advance i call phase).calls[j]? = some x) :
    (j = i ∧ x = { call with phase := phase }) ∨ s.calls[j]? = some x := by
  by_cases same : j = i
  · subst same
    obtain ⟨inside, _⟩ := List.getElem?_eq_some_iff.mp held
    refine .inl ⟨rfl, ?_⟩
    simpa [ToolState.advance, List.getElem?_set, inside] using here.symm
  · exact .inr (by simpa [ToolState.advance, List.getElem?_set, Ne.symm same] using here)

theorem advance_keeps {i j : Nat} {call y : ToolCall} {phase : Phase}
    (held : s.calls[i]? = some call) (there : s.calls[j]? = some y) :
    ∃ x, (s.advance i call phase).calls[j]? = some x ∧ x.operation = y.operation ∧
      x.operationKey = y.operationKey ∧ x.payload = y.payload := by
  by_cases same : j = i
  · subst same
    rw [held, Option.some.injEq] at there
    obtain ⟨inside, _⟩ := List.getElem?_eq_some_iff.mp held
    subst there
    exact ⟨{ call with phase := phase }, by simp [ToolState.advance, inside], rfl, rfl, rfl⟩
  · exact ⟨y, by simpa [ToolState.advance, List.getElem?_set, Ne.symm same] using there, rfl, rfl, rfl⟩

/-- A call stays the same call. -/
theorem call_kept (effect : ToolEffect config codec s a t) {j : Nat} {y : ToolCall}
    (there : s.calls[j]? = some y) :
    ∃ x, t.calls[j]? = some x ∧ x.operation = y.operation ∧ x.operationKey = y.operationKey ∧
      x.payload = y.payload := by
  cases effect with
  | arrived fresh =>
    obtain ⟨inside, _⟩ := List.getElem?_eq_some_iff.mp there
    exact ⟨y, by simpa [List.getElem?_append_left inside] using there, rfl, rfl, rfl⟩
  | @crashed lose loses =>
    refine ⟨lose y, by simp [there], ?_⟩
    rcases loses y with same | lost
    · simp [same]
    · simp [lost]
  | missed held | found held | conflicted held | collided held | applied held | injected held
  | answered held | failed held => exact advance_keeps held there

/-- What one step may do to the phase of a call, the store before and after it given. -/
inductive PhaseMove (config : ToolConfig) (codec : ToolCodec) (before after : ToolStore)
    (a : ToolAction) (i : Nat) (call : ToolCall) : Phase → Prop where
  | kept : PhaseMove config codec before after a i call call.phase
  | missed (request : Json) (was : call.phase = .started request)
      (looked : before.lookup codec call.operation call.operationKey request = .ok none) :
      PhaseMove config codec before after a i call (.missed request)
  | found (request : Json) (result : ToolResult) (decides : Deciding a i call request)
      (looked : before.lookup codec call.operation call.operationKey request = .ok (some result)) :
      PhaseMove config codec before after a i call (.replying (.result result))
  | conflicted (request : Json) (e : ToolError) (decides : Deciding a i call request)
      (looked : before.lookup codec call.operation call.operationKey request = .error e) :
      PhaseMove config codec before after a i call (.replying conflictReply)
  | applied (request : Json) (id : String) (now : Datetime) (was : call.phase = .admitted request)
      (acts : ∃ hex now, a = .apply i hex now)
      (fresh : ∀ e ∈ before.sideEffects, e.operationKey ≠ call.operationKey)
      (grown : after.sideEffects = before.sideEffects ++
        [⟨id, call.operationKey, call.operation, request, now⟩]) :
      PhaseMove config codec before after a i call (.replying (.result ⟨call.operation, id, false⟩))
  | admitted (request : Json) (was : call.phase = .missed request) :
      PhaseMove config codec before after a i call (.admitted request)
  | throttled (request : Json) (was : call.phase = .missed request) :
      PhaseMove config codec before after a i call (.replying (throttledReply config.retryAfter))
  | answered (reply : Reply) (was : call.phase = .replying reply) :
      PhaseMove config codec before after a i call (.answered reply)
  | failed : PhaseMove config codec before after a i call (.replying errorReply)
  | lost : PhaseMove config codec before after a i call .lost

/-- A call after a step is a call before it, moved on, or it has just arrived. -/
theorem call_after (effect : ToolEffect config codec s a t) {j : Nat} {x : ToolCall}
    (here : t.calls[j]? = some x) :
    (∃ y phase, s.calls[j]? = some y ∧ PhaseMove config codec s.store t.store a j y phase ∧
      x = { y with phase := phase }) ∨
    (s.calls.length ≤ j ∧ ((∃ request, codec.modelValidate x.operation x.payload = some request ∧
      x.phase = .started request) ∨ x.phase = .replying errorReply)) := by
  have moved : ∀ {i call phase}, s.calls[i]? = some call →
      PhaseMove config codec s.store t.store a i call phase →
      (s.advance i call phase).calls[j]? = some x →
      ∃ y phase, s.calls[j]? = some y ∧ PhaseMove config codec s.store t.store a j y phase ∧
        x = { y with phase := phase } := by
    intro i call phase held move here
    rcases advance_get held here with ⟨rfl, rfl⟩ | same
    · exact ⟨call, phase, held, move, rfl⟩
    · exact ⟨x, x.phase, same, .kept, rfl⟩
  cases effect with
  | arrived fresh =>
    rcases Nat.lt_or_ge j s.calls.length with old | new
    · rw [List.getElem?_append_left old] at here
      exact .inl ⟨x, x.phase, here, .kept, rfl⟩
    · rw [List.getElem?_append_right new] at here
      have last := List.mem_singleton.mp (List.mem_of_getElem? here)
      subst last
      exact .inr ⟨new, fresh⟩
  | @crashed lose loses =>
    rw [List.getElem?_map] at here
    obtain ⟨y, there, same⟩ := Option.map_eq_some_iff.mp here
    subst same
    rcases loses y with kept | lost
    · exact .inl ⟨y, y.phase, there, .kept, kept⟩
    · exact .inl ⟨y, .lost, there, .lost, lost⟩
  | missed held was looked => exact .inl (moved held (.missed _ was looked) here)
  | found held decides looked => exact .inl (moved held (.found _ _ decides looked) here)
  | conflicted held decides looked => exact .inl (moved held (.conflicted _ _ decides looked) here)
  | collided held => exact .inl (moved held .failed here)
  | applied held was looked fresh =>
    rcases advance_get held here with ⟨rfl, rfl⟩ | same
    · exact .inl ⟨_, _, held,
        .applied _ _ _ was ⟨_, _, rfl⟩ (fun e member => (fresh e member).2) rfl, rfl⟩
    · exact .inl ⟨x, x.phase, same, .kept, rfl⟩
  | injected held was outcome =>
    rcases outcome with admitted | throttled
    · exact .inl (moved held (admitted ▸ .admitted _ was) here)
    · exact .inl (moved held (throttled ▸ .throttled _ was) here)
  | answered held was => exact .inl (moved held (.answered _ was) here)
  | failed held => exact .inl (moved held .failed here)

theorem calls_length (effect : ToolEffect config codec s a t)
    (inside : ∀ operation operationKey payload, a ≠ .arrive operation operationKey payload) :
    t.calls.length = s.calls.length := by
  cases effect with
  | arrived fresh => exact absurd rfl (inside _ _ _)
  | _ => simp [ToolState.advance]

/-- The ledger changes in the transaction of an admitted call whose key has no row. -/
theorem store_after (effect : ToolEffect config codec s a t) :
    t.store = s.store ∨ ∃ i call request id now, s.calls[i]? = some call ∧
      call.phase = .admitted request ∧
      (∀ e ∈ s.store.sideEffects, e.id ≠ id ∧ e.operationKey ≠ call.operationKey) ∧
      t.reply? i = some (.result ⟨call.operation, id, false⟩) ∧
      t.store.sideEffects = s.store.sideEffects ++
        [⟨id, call.operationKey, call.operation, request, now⟩] ∧
      t.store.idempotencyResults = s.store.idempotencyResults ++
        [⟨call.operationKey, call.operation, codec.requestHash request,
          ⟨call.operation, id, false⟩, now⟩] := by
  cases effect with
  | applied held was looked fresh =>
    obtain ⟨inside, _⟩ := List.getElem?_eq_some_iff.mp held
    exact .inr ⟨_, _, _, _, _, held, was, fresh,
      by simp [ToolState.reply?, ToolState.advance, inside, Phase.reply?], rfl, rfl⟩
  | _ => exact .inl rfl

end Step

section Lookup
variable {codec : ToolCodec} {store : ToolStore}

/- The row of one table that belongs to a row of the other. -/
structure Matched (codec : ToolCodec) (e : SideEffect) (row : IdempotencyResult) : Prop where
  operationKey : row.operationKey = e.operationKey
  operation : row.operation = e.operation
  requestHash : row.requestHash = codec.requestHash e.request
  response : row.response = ⟨e.operation, e.id, false⟩

theorem find_matched {effects : List SideEffect} {rows : List IdempotencyResult}
    (matched : List.Forall₂ (Matched codec) effects rows) (operationKey : String) :
    match rows.find? fun row => row.operationKey = operationKey with
    | none => ∀ e ∈ effects, e.operationKey ≠ operationKey
    | some row => ∃ e ∈ effects, e.operationKey = operationKey ∧ Matched codec e row := by
  induction matched with
  | nil => simp
  | @cons e row effects rows here later ih =>
    by_cases same : row.operationKey = operationKey
    · simp only [List.find?_cons, same, decide_true]
      exact ⟨e, by simp, here.operationKey.symm.trans same, here⟩
    · simp only [List.find?_cons, same, decide_false]
      split at ih
      · rename_i none
        simp only [none]
        intro other member
        rcases List.mem_cons.mp member with rfl | inside
        · exact fun key => same (here.operationKey.trans key)
        · exact ih other inside
      · rename_i found
        simp only [found]
        obtain ⟨other, inside, key⟩ := ih
        exact ⟨other, List.mem_cons_of_mem e inside, key⟩

variable (matched : List.Forall₂ (Matched codec) store.sideEffects store.idempotencyResults)
  {operation : StepName} {operationKey : String} {request : Json}
include matched

theorem lookup_none (looked : store.lookup codec operation operationKey request = .ok none) :
    ∀ e ∈ store.sideEffects, e.operationKey ≠ operationKey := by
  have found := find_matched matched operationKey
  unfold ToolStore.lookup at looked
  split at looked
  · rename_i none
    simpa only [none] using found
  · split at looked
    · cases looked
    · cases looked

theorem lookup_some {result : ToolResult}
    (looked : store.lookup codec operation operationKey request = .ok (some result)) :
    ∃ e ∈ store.sideEffects, e.operationKey = operationKey ∧ e.operation = operation ∧
      codec.requestHash e.request = codec.requestHash request ∧ result = ⟨e.operation, e.id, true⟩ := by
  have found := find_matched matched operationKey
  unfold ToolStore.lookup at looked
  split at looked
  · cases looked
  · rename_i row present
    simp only [present] at found
    obtain ⟨e, member, key, same⟩ := found
    split at looked
    · cases looked
    · rename_i agrees
      push Not at agrees
      cases looked
      exact ⟨e, member, key, same.operation.symm.trans agrees.1,
        same.requestHash.symm.trans agrees.2, by rw [same.response]⟩

theorem lookup_error {e : ToolError}
    (looked : store.lookup codec operation operationKey request = .error e) :
    ∃ e ∈ store.sideEffects, e.operationKey = operationKey ∧
      (e.operation ≠ operation ∨ codec.requestHash e.request ≠ codec.requestHash request) := by
  have found := find_matched matched operationKey
  unfold ToolStore.lookup at looked
  split at looked
  · cases looked
  · rename_i row present
    simp only [present] at found
    obtain ⟨e, member, key, same⟩ := found
    split at looked
    · rename_i differs
      rw [same.operation, same.requestHash] at differs
      exact ⟨e, member, key, differs⟩
    · cases looked

end Lookup

end Crashsafe
