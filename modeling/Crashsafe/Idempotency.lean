import Crashsafe.ToolLedger
import Crashsafe.Definition

/- Idempotency of the mock tool for arbitrary clients. -/
namespace Crashsafe
open Execution

/-- The hash tells the canonical requests of any two accepted payloads apart. -/
def HashInjective (codec : ToolCodec) : Prop :=
  ∀ operation payload request operation' payload' request',
    codec.modelValidate operation payload = some request →
    codec.modelValidate operation' payload' = some request' →
    codec.requestHash request = codec.requestHash request' → request = request'

/-- Another operation or request has committed under the call's key. -/
def Conflicting (store : ToolStore) (call : ToolCall) (request : Json) : Prop :=
  ∃ e ∈ store.sideEffects, e.operationKey = call.operationKey ∧
    (e.operation ≠ call.operation ∨ e.request ≠ request)

/-- The reply of a call carries a result. -/
def ToolState.Replied (s : ToolState) (i : Nat) (call : ToolCall) (result : ToolResult) : Prop :=
  s.calls[i]? = some call ∧ call.phase.reply? = some (.result result)

/-- The result is that of the effect recorded under the call's key. -/
def Tells (store : ToolStore) (call : ToolCall) (result : ToolResult) : Prop :=
  ∃ e ∈ store.sideEffects, e.operationKey = call.operationKey ∧ e.operation = call.operation ∧
    result.operation = e.operation ∧ result.referenceId = e.id

/-- Some call asked for the operation under the key, with a payload that gives the request. -/
def Requested (codec : ToolCodec) (s : ToolState) (operation : StepName) (operationKey : String)
    (request : Json) : Prop :=
  ∃ (i : Nat) (call : ToolCall), s.calls[i]? = some call ∧ call.operation = operation ∧
    call.operationKey = operationKey ∧ codec.modelValidate operation call.payload = some request

/- The invariant of the ledger and of the calls in progress. -/
structure ToolSound (codec : ToolCodec) (s : ToolState) : Prop where
  matched : List.Forall₂ (Matched codec) s.store.sideEffects s.store.idempotencyResults
  keys : (s.store.sideEffects.map (·.operationKey)).Nodup
  requests : ∀ (i : Nat) (call : ToolCall) (request : Json), s.calls[i]? = some call →
    call.phase.request? = some request →
    codec.modelValidate call.operation call.payload = some request
  results : ∀ i call result, s.Replied i call result → Tells s.store call result
  firsts : ∀ i j x y r r', s.Replied i x r → s.Replied j y r' → x.operationKey = y.operationKey →
    r.deduplicated = false → r'.deduplicated = false → i = j
  origin : ∀ e ∈ s.store.sideEffects, Requested codec s e.operation e.operationKey e.request

section Kept
variable {config : ToolConfig} {codec : ToolCodec} {s t : ToolState} {a : ToolAction}

theorem tool_sound_start : ToolSound codec (ToolState.initial config) := by
  refine ⟨.nil, .nil, ?_, ?_, ?_, ?_⟩
  · intro i call request held
    cases held
  · rintro i call result ⟨held, _⟩
    cases held
  · rintro i j x y r r' ⟨held, _⟩
    cases held
  · intro e member
    cases member

theorem effects_grow (effect : ToolEffect config codec s a t) :
    ∀ e ∈ s.store.sideEffects, e ∈ t.store.sideEffects := by
  intro e member
  rcases store_after effect with same | ⟨_, _, _, _, _, _, _, _, _, grown, _⟩
  · exact same ▸ member
  · rw [grown]
    exact List.mem_append_left _ member

theorem requests_after (sound : ToolSound codec s) (effect : ToolEffect config codec s a t) (i : Nat)
    (x : ToolCall) (request : Json) (here : t.calls[i]? = some x)
    (holds : x.phase.request? = some request) :
    codec.modelValidate x.operation x.payload = some request := by
  rcases call_after effect here with ⟨y, phase, there, move, rfl⟩ | ⟨_, ⟨r, valid, started⟩ | failed⟩
  · have before := sound.requests i y request there
    cases move with
    | kept => exact before holds
    | missed r was | admitted r was =>
      rw [was] at before
      exact before holds
    | _ => cases holds
  · rw [started] at holds
    cases holds
    exact valid
  · rw [failed] at holds
    cases holds

/-- A reply with a result is an old one, or reports an effect that is in the ledger now. -/
theorem result_after (sound : ToolSound codec s) (effect : ToolEffect config codec s a t) {i : Nat}
    {x : ToolCall} {r : ToolResult} (replied : t.Replied i x r) :
    (∃ y, s.Replied i y r ∧ y.operationKey = x.operationKey ∧ y.operation = x.operation) ∨
    (Tells t.store x r ∧ (r.deduplicated = false → (∃ hex now, a = .apply i hex now) ∧
      ∀ e ∈ s.store.sideEffects, e.operationKey ≠ x.operationKey)) := by
  obtain ⟨here, holds⟩ := replied
  rcases call_after effect here with ⟨y, phase, there, move, rfl⟩ | ⟨_, ⟨_, _, started⟩ | failed⟩
  · cases move with
    | kept => exact .inl ⟨y, ⟨there, holds⟩, rfl, rfl⟩
    | answered reply was =>
      refine .inl ⟨y, ⟨there, ?_⟩, rfl, rfl⟩
      rw [was]
      exact holds
    | found request result decides looked =>
      cases holds
      obtain ⟨e, member, key, operation, _, same⟩ := lookup_some sound.matched looked
      subst same
      exact .inr ⟨⟨e, effects_grow effect e member, key, operation, rfl, rfl⟩, fun first => by cases first⟩
    | applied request id now was acts fresh grown =>
      cases holds
      have stored : ⟨id, y.operationKey, y.operation, request, now⟩ ∈ t.store.sideEffects := by
        rw [grown]
        simp
      exact .inr ⟨⟨_, stored, rfl, rfl, rfl, rfl⟩, fun _ => ⟨acts, fresh⟩⟩
    | _ => cases holds
  · rw [started] at holds
    cases holds
  · rw [failed] at holds
    cases holds

theorem results_after (sound : ToolSound codec s) (effect : ToolEffect config codec s a t) (i : Nat)
    (x : ToolCall) (r : ToolResult) (replied : t.Replied i x r) : Tells t.store x r := by
  rcases result_after sound effect replied with ⟨y, before, key, operation⟩ | ⟨told, _⟩
  · obtain ⟨e, member, told⟩ := sound.results i y r before
    exact ⟨e, effects_grow effect e member, key ▸ operation ▸ told⟩
  · exact told

theorem firsts_after (sound : ToolSound codec s) (effect : ToolEffect config codec s a t) (i j : Nat)
    (x y : ToolCall) (r r' : ToolResult) (holds : t.Replied i x r) (also : t.Replied j y r')
    (same : x.operationKey = y.operationKey) (first : r.deduplicated = false)
    (first' : r'.deduplicated = false) : i = j := by
  rcases result_after sound effect holds with ⟨x', beforeX, keyX, _⟩ | ⟨_, newX⟩
  · rcases result_after sound effect also with ⟨y', beforeY, keyY, _⟩ | ⟨_, newY⟩
    · exact sound.firsts i j x' y' r r' beforeX beforeY (keyX.trans (same.trans keyY.symm)) first first'
    · obtain ⟨e, member, key, _⟩ := sound.results i x' r beforeX
      exact absurd (key.trans (keyX.trans same)) ((newY first').2 e member)
  · rcases result_after sound effect also with ⟨y', beforeY, keyY, _⟩ | ⟨_, newY⟩
    · obtain ⟨e, member, key, _⟩ := sound.results j y' r' beforeY
      exact absurd (key.trans (keyY.trans same.symm)) ((newX first).2 e member)
    · obtain ⟨⟨_, _, acts⟩, _⟩ := newX first
      obtain ⟨⟨_, _, acts'⟩, _⟩ := newY first'
      rw [acts] at acts'
      cases acts'
      rfl

theorem requested_kept (effect : ToolEffect config codec s a t) {operation : StepName}
    {operationKey : String} {request : Json} (before : Requested codec s operation operationKey request) :
    Requested codec t operation operationKey request := by
  obtain ⟨i, y, there, sameOperation, sameKey, valid⟩ := before
  obtain ⟨x, here, operation', key, payload⟩ := call_kept effect there
  exact ⟨i, x, here, operation'.trans sameOperation, key.trans sameKey, payload ▸ valid⟩

theorem origin_after (sound : ToolSound codec s) (effect : ToolEffect config codec s a t)
    (e : SideEffect) (member : e ∈ t.store.sideEffects) :
    Requested codec t e.operation e.operationKey e.request := by
  apply requested_kept effect
  rcases store_after effect with same | ⟨i, y, request, id, now, there, was, _, _, grown, _⟩
  · exact sound.origin e (same ▸ member)
  · rw [grown] at member
    rcases List.mem_append.mp member with before | new
    · exact sound.origin e before
    · rw [List.mem_singleton.mp new]
      exact ⟨i, y, there, rfl, rfl, sound.requests i y request there (by rw [was]; rfl)⟩

theorem tool_sound_effect (sound : ToolSound codec s) (effect : ToolEffect config codec s a t) :
    ToolSound codec t := by
  refine ⟨?_, ?_, requests_after sound effect, results_after sound effect, firsts_after sound effect,
    origin_after sound effect⟩
  · rcases store_after effect with same | ⟨_, _, _, _, _, _, _, _, _, effects, rows⟩
    · rw [same]
      exact sound.matched
    · rw [effects, rows]
      exact List.rel_append sound.matched (.cons ⟨rfl, rfl, rfl, rfl⟩ .nil)
  · rcases store_after effect with same | ⟨_, _, _, _, _, _, _, fresh, _, effects, _⟩
    · rw [same]
      exact sound.keys
    · rw [effects, List.map_append, List.nodup_append]
      refine ⟨sound.keys, by simp, ?_⟩
      intro key old key' new
      obtain ⟨e, member, rfl⟩ := List.mem_map.mp old
      rw [List.map_singleton, List.mem_singleton] at new
      exact new ▸ (fresh e member).2

theorem tool_sound_reachable {init : ToolState} (start : ToolSound codec init)
    (reached : Reachable (toolStep config codec) anyStep init s) : ToolSound codec s :=
  reachable_invariant start
    (fun _ _ _ _ sound _ taken => tool_sound_effect sound (tool_step_effect taken)) reached

end Kept

section Decided
variable {config : ToolConfig} {codec : ToolCodec} {s t : ToolState} {a : ToolAction} {i : Nat}
  {call : ToolCall}

/-- A conflict is answered only where a different effect is recorded under the key. -/
theorem conflict_sound (sound : ToolSound codec s) (effect : ToolEffect config codec s a t)
    (held : s.calls[i]? = some call) (before : call.phase.reply? ≠ some conflictReply)
    (replied : t.reply? i = some conflictReply) :
    ∃ request, Deciding a i call request ∧ Conflicting s.store call request := by
  obtain ⟨x, here, holds⟩ := Option.bind_eq_some_iff.mp replied
  rcases call_after effect here with ⟨y, phase, there, move, rfl⟩ | ⟨new, _⟩
  · rw [held, Option.some.injEq] at there
    subst there
    cases move with
    | kept => exact absurd holds before
    | answered reply was =>
      rw [was] at before
      exact absurd holds before
    | conflicted request e decides looked =>
      obtain ⟨effect', member, key, differs⟩ := lookup_error sound.matched looked
      refine ⟨request, decides, effect', member, key, differs.imp id fun hashes same => ?_⟩
      exact hashes (congrArg codec.requestHash same)
    | _ => simp [Phase.reply?, conflictReply, errorReply, throttledReply] at holds
  · obtain ⟨inside, _⟩ := List.getElem?_eq_some_iff.mp held
    omega

theorem conflicting_lookup (injective : HashInjective codec) (sound : ToolSound codec s)
    {request : Json} (held : s.calls[i]? = some call) (holds : call.phase.request? = some request)
    (conflict : Conflicting s.store call request) :
    s.store.lookup codec call.operation call.operationKey request =
      .error (.idempotencyConflict call.operationKey) := by
  obtain ⟨e, member, key, differs⟩ := conflict
  cases looked : s.store.lookup codec call.operation call.operationKey request with
  | error e => rw [lookup_refusal looked]
  | ok found =>
    exfalso
    cases found with
    | none => exact lookup_none sound.matched looked e member key
    | some result =>
      obtain ⟨e', member', key', operation, hashes, _⟩ := lookup_some sound.matched looked
      have same : e = e' := List.inj_on_of_nodup_map sound.keys member member' (key.trans key'.symm)
      subst same
      obtain ⟨_, other, _, _, _, valid⟩ := sound.origin e member
      have requests : e.request = request := injective _ _ _ _ _ _ valid
        (sound.requests i call request held holds) hashes
      exact differs.elim (fun d => d operation) (fun d => d requests)

/-- At the lookup that decides it, a call with such an effect under its key is answered so. -/
theorem conflict_complete (injective : HashInjective codec) (sound : ToolSound codec s)
    (taken : toolStep config codec s a = some t) (held : s.calls[i]? = some call) {request : Json}
    (decides : Deciding a i call request) (conflict : Conflicting s.store call request) :
    t.reply? i = some conflictReply := by
  obtain ⟨inside, _⟩ := List.getElem?_eq_some_iff.mp held
  have answered : (s.advance i call (.replying conflictReply)).reply? i = some conflictReply := by
    simp [ToolState.reply?, ToolState.advance, inside, Phase.reply?]
  rcases decides with ⟨acts, was⟩ | ⟨hex, now, acts, was⟩
  · have looked := conflicting_lookup injective sound held (by rw [was]; rfl) conflict
    subst acts
    simp only [toolStep, held, Option.bind_some, was, ToolStore.find, looked, Option.some.injEq] at taken
    rw [← taken, answered]
  · have looked := conflicting_lookup injective sound held (by rw [was]; rfl) conflict
    subst acts
    simp only [toolStep, held, Option.bind_some, was, ToolStore.apply, looked, Option.some.injEq] at taken
    rw [← taken, answered]

/-- Only the step that records an effect changes the ledger, and it replies with a result. -/
theorem refusal_unchanged (effect : ToolEffect config codec s a t) {statusCode : Nat}
    {detail : String} {retryAfter : Option String}
    (replied : t.reply? i = some (.refused statusCode detail retryAfter))
    (changed : s.reply? i ≠ t.reply? i) : t.store = s.store := by
  cases effect with
  | applied held was looked fresh =>
    exfalso
    obtain ⟨x, here, holds⟩ := Option.bind_eq_some_iff.mp replied
    rcases advance_get held here with ⟨rfl, rfl⟩ | same
    · cases holds
    · exact changed (by rw [replied, ToolState.reply?, same, Option.bind_some, holds])
  | _ => rfl

/-- A call that arrived after `start`, when its key had committed, gets past no lookup and is
    not throttled. -/
structure Unthrottled (config : ToolConfig) (start s : ToolState) : Prop where
  effects : ∀ e ∈ start.store.sideEffects, e ∈ s.store.sideEffects
  calls : ∀ (j : Nat) (x : ToolCall), start.calls.length ≤ j → s.calls[j]? = some x →
    (∃ e ∈ start.store.sideEffects, e.operationKey = x.operationKey) →
    (∀ request, x.phase ≠ .missed request) ∧
      x.phase.reply? ≠ some (throttledReply config.retryAfter)

theorem unthrottled_effect {start : ToolState} (sound : ToolSound codec s)
    (before : Unthrottled config start s) (effect : ToolEffect config codec s a t) :
    Unthrottled config start t := by
  refine ⟨fun e member => effects_grow effect e (before.effects e member), ?_⟩
  intro j x late here committed
  rcases call_after effect here with ⟨y, phase, there, move, rfl⟩ | ⟨_, ⟨_, _, started⟩ | failed⟩
  · obtain ⟨unmissed, unthrottled⟩ := before.calls j y late there committed
    cases move with
    | kept => exact ⟨unmissed, unthrottled⟩
    | missed request was looked =>
      obtain ⟨e, member, key⟩ := committed
      exact absurd key (lookup_none sound.matched looked e (before.effects e member))
    | throttled request was => exact absurd was (unmissed request)
    | answered reply was =>
      rw [was] at unthrottled
      exact ⟨by simp, unthrottled⟩
    | _ => simp [Phase.reply?, conflictReply, errorReply, throttledReply]
  · simp [started, Phase.reply?]
  · simp [failed, Phase.reply?, errorReply, throttledReply]

end Decided

section Matching
variable {codec : ToolCodec} {effects : List SideEffect} {rows : List IdempotencyResult}

theorem matched_keys (matched : List.Forall₂ (Matched codec) effects rows) :
    rows.map (·.operationKey) = effects.map (·.operationKey) := by
  induction matched with
  | nil => rfl
  | cons here later ih => rw [List.map_cons, List.map_cons, here.operationKey, ih]

theorem matched_row (matched : List.Forall₂ (Matched codec) effects rows) :
    ∀ row ∈ rows, ∃ e ∈ effects, Matched codec e row := by
  induction matched with
  | nil => simp
  | @cons e row effects rows here later ih =>
    intro other member
    rcases List.mem_cons.mp member with rfl | inside
    · exact ⟨e, by simp, here⟩
    · obtain ⟨e', inside', same⟩ := ih other inside
      exact ⟨e', List.mem_cons_of_mem e inside', same⟩

end Matching

/-- What the tool promises its clients, whoever they are. -/
structure IdempotencySound (config : ToolConfig) (codec : ToolCodec) (s : ToolState) : Prop where
  sameKeys : ∀ key, key ∈ s.store.sideEffects.map (·.operationKey) ↔
    key ∈ s.store.idempotencyResults.map (·.operationKey)
  effectsOnce : (s.store.sideEffects.map (·.operationKey)).Nodup
  resultsOnce : (s.store.idempotencyResults.map (·.operationKey)).Nodup
  matching : ∀ e ∈ s.store.sideEffects, ∀ row ∈ s.store.idempotencyResults,
    row.operationKey = e.operationKey → Matched codec e row
  replies : ∀ i call result, s.Replied i call result → Tells s.store call result
  agreement : ∀ i j x y r r', s.Replied i x r → s.Replied j y r' → x.operationKey = y.operationKey →
    r.operation = r'.operation ∧ r.referenceId = r'.referenceId
  firsts : ∀ i j x y r r', s.Replied i x r → s.Replied j y r' → x.operationKey = y.operationKey →
    r.deduplicated = false → r'.deduplicated = false → i = j
  conflicts : ∀ (a : ToolAction) (t : ToolState) (i : Nat) (call : ToolCall),
    toolStep config codec s a = some t → s.calls[i]? = some call → call.phase.reply? = none →
    (t.reply? i = some conflictReply ↔
      ∃ request, Deciding a i call request ∧ Conflicting s.store call request)
  unchanged : ∀ a t i statusCode detail retryAfter, toolStep config codec s a = some t →
    t.reply? i = some (.refused statusCode detail retryAfter) → s.reply? i ≠ t.reply? i →
    t.store = s.store
  committed : ∀ t, Reachable (toolStep config codec) anyStep s t →
    ∀ (j : Nat) (x : ToolCall), s.calls.length ≤ j → t.calls[j]? = some x →
    (∃ e ∈ s.store.sideEffects, e.operationKey = x.operationKey) →
    t.reply? j ≠ some (throttledReply config.retryAfter)

theorem tells_agree {store : ToolStore} {x y : ToolCall} {r r' : ToolResult}
    (keys : (store.sideEffects.map (·.operationKey)).Nodup) (left : Tells store x r)
    (right : Tells store y r') (same : x.operationKey = y.operationKey) :
    r.operation = r'.operation ∧ r.referenceId = r'.referenceId := by
  obtain ⟨e, member, key, _, operation, reference⟩ := left
  obtain ⟨e', member', key', _, operation', reference'⟩ := right
  have one : e = e' :=
    List.inj_on_of_nodup_map keys member member' (key.trans (same.trans key'.symm))
  subst one
  exact ⟨operation.trans operation'.symm, reference.trans reference'.symm⟩

theorem tool_idempotent {config : ToolConfig} {codec : ToolCodec} (injective : HashInjective codec)
    {s : ToolState}
    (reached : Reachable (toolStep config codec) anyStep (ToolState.initial config) s) :
    IdempotencySound config codec s := by
  have sound := tool_sound_reachable tool_sound_start reached
  have keys := matched_keys sound.matched
  constructor
  case sameKeys => exact fun key => by rw [keys]
  case effectsOnce => exact sound.keys
  case resultsOnce => exact keys ▸ sound.keys
  case matching =>
    intro e member row inside key
    obtain ⟨e', member', same⟩ := matched_row sound.matched row inside
    have one : e' = e :=
      List.inj_on_of_nodup_map sound.keys member' member (same.operationKey.symm.trans key)
    exact one ▸ same
  case replies => exact sound.results
  case agreement =>
    intro i j x y r r' left right same
    exact tells_agree sound.keys (sound.results i x r left) (sound.results j y r' right) same
  case firsts => exact sound.firsts
  case conflicts =>
    intro a t i call taken held waiting
    constructor
    · exact conflict_sound sound (tool_step_effect taken) held (by simp [waiting])
    · rintro ⟨request, decides, conflict⟩
      exact conflict_complete injective sound taken held decides conflict
  case unchanged =>
    intro a t i statusCode detail retryAfter taken replied changed
    exact refusal_unchanged (tool_step_effect taken) replied changed
  case committed =>
    intro t later j x late here committed
    have start : Unthrottled config s s := by
      refine ⟨fun _ => id, fun j x late here => ?_⟩
      obtain ⟨inside, _⟩ := List.getElem?_eq_some_iff.mp here
      omega
    have kept : Unthrottled config s t := by
      refine reachable_invariant start (fun u a w before unthrottled _ taken => ?_) later
      exact unthrottled_effect (tool_sound_reachable sound before) unthrottled (tool_step_effect taken)
    rw [ToolState.reply?, here]
    exact (kept.calls j x late here committed).2

section Example

/- The request models on payloads of the very types they declare. -/
def parseRequest : StepName → Json → Option StepRequest
  | .charge, .obj [("amount_cents", .num amount), ("customer_id", .str customerId)] =>
    if amount.den = 1 then some (.charge customerId amount.num) else none
  | .provision, .obj [("customer_id", .str customerId), ("plan", .str plan)] =>
    some (.provision customerId plan)
  | .notify, .obj [("customer_id", .str customerId), ("email", .str email), ("message", .str message)] =>
    some (.notify customerId email message)
  | _, _ => none

/-- A text that tells the requests apart. -/
def requestText : StepRequest → List Char
  | .charge customerId amountCents =>
    'c' :: (List.replicate amountCents.toNat 'x' ++ ',' :: customerId.toList)
  | .provision customerId plan =>
    'p' :: (List.replicate customerId.toList.length 'x' ++ ',' :: (customerId.toList ++ plan.toList))
  | .notify customerId email message =>
    'n' :: (List.replicate customerId.toList.length 'x' ++ ',' ::
      (List.replicate email.toList.length 'x' ++
        ',' :: (customerId.toList ++ (email.toList ++ message.toList))))

def parseAny (request : Json) : Option StepRequest :=
  ((parseRequest .charge request).orElse fun _ => parseRequest .provision request).orElse
    fun _ => parseRequest .notify request

theorem unary_inj {m n : Nat} {xs ys : List Char}
    (same : List.replicate m 'x' ++ ',' :: xs = List.replicate n 'x' ++ ',' :: ys) :
    m = n ∧ xs = ys := by
  have none : ∀ k, ',' ∉ List.replicate k 'x' := fun k h => absurd (List.eq_of_mem_replicate h) (by decide)
  obtain ⟨lists, rest⟩ := separator_inj (none m) (none n) same
  exact ⟨by simpa using congrArg List.length lists, rest⟩

theorem request_text_inj {q q' : StepRequest} (accepted : q.Accepted) (accepted' : q'.Accepted)
    (same : requestText q = requestText q') : q = q' := by
  cases q <;> cases q' <;> simp only [requestText, List.cons.injEq, true_and] at same
  case charge.charge c a c' a' =>
    obtain ⟨amounts, customers⟩ := unary_inj same
    have positive : 0 < a := accepted.2
    have positive' : 0 < a' := accepted'.2
    obtain rfl := String.toList_inj.mp customers
    obtain rfl : a = a' := by omega
    rfl
  case provision.provision c p c' p' =>
    obtain ⟨lengths, rest⟩ := unary_inj same
    obtain ⟨customers, plans⟩ := List.append_inj rest lengths
    rw [String.toList_inj.mp customers, String.toList_inj.mp plans]
  case notify.notify c e m c' e' m' =>
    obtain ⟨lengths, rest⟩ := unary_inj same
    obtain ⟨lengths', rest⟩ := unary_inj rest
    obtain ⟨customers, rest⟩ := List.append_inj rest lengths
    obtain ⟨emails, messages⟩ := List.append_inj rest lengths'
    rw [String.toList_inj.mp customers, String.toList_inj.mp emails, String.toList_inj.mp messages]
  all_goals exact absurd same.1 (by decide)

theorem parse_dump (q : StepRequest) : parseRequest q.operation q.modelDump = some q := by
  cases q <;> simp [StepRequest.operation, StepRequest.modelDump, parseRequest]

theorem parse_any_dump (q : StepRequest) : parseAny q.modelDump = some q := by
  cases q <;> simp [StepRequest.modelDump, parseAny, parseRequest]

def sampleCharge : StepRequest := .charge "c-1" 2500

def modelCodec : ToolCodec where
  modelValidate operation payload :=
    (parseRequest operation payload).bind fun q => if q.Accepted then some q.modelDump else none
  requestHash request :=
    if parseAny request = some sampleCharge then
      "b09cc290679ecf508f3c5541f4829862df5020b7a2fec42b85fdeffae9ec2801"
    else String.ofList ((parseAny request).elim [] requestText)

theorem model_validate_accepted {operation : StepName} {payload request : Json}
    (valid : modelCodec.modelValidate operation payload = some request) :
    ∃ q : StepRequest, q.Accepted ∧ request = q.modelDump := by
  obtain ⟨q, _, dumped⟩ := Option.bind_eq_some_iff.mp valid
  split at dumped
  · rename_i accepted
    exact ⟨q, accepted, (Option.some.inj dumped).symm⟩
  · cases dumped

theorem hash_dump (q : StepRequest) : modelCodec.requestHash q.modelDump =
    if q = sampleCharge then "b09cc290679ecf508f3c5541f4829862df5020b7a2fec42b85fdeffae9ec2801"
    else String.ofList (requestText q) := by
  simp [modelCodec, parse_any_dump]

theorem model_codec_injective : HashInjective modelCodec := by
  intro operation payload request operation' payload' request' valid valid' same
  obtain ⟨q, accepted, rfl⟩ := model_validate_accepted valid
  obtain ⟨q', accepted', rfl⟩ := model_validate_accepted valid'
  rw [hash_dump, hash_dump] at same
  have apart : ∀ q : StepRequest,
      "b09cc290679ecf508f3c5541f4829862df5020b7a2fec42b85fdeffae9ec2801" ≠
        String.ofList (requestText q) := by
    intro q equal
    have chars := congrArg (·.toList.head?) equal
    cases q <;> simp [requestText] at chars
  split at same
  · rename_i here
    split at same
    · rename_i there
      rw [here, there]
    · exact absurd same (apart q')
  · split at same
    · exact absurd same.symm (apart q)
    · rw [request_text_inj accepted accepted' (String.ofList_injective same)]

theorem model_codec_revalidates {q : StepRequest} (accepted : q.Accepted) :
    modelCodec.modelValidate q.operation q.modelDump = some q.modelDump := by
  simp [modelCodec, parse_dump, accepted]

/- Three charges under one key: the first is throttled, the other two reach the transaction. -/
def overlappingCharges : List ToolAction :=
  [.arrive .charge "a1:charge" sampleCharge.modelDump, .arrive .charge "a1:charge" sampleCharge.modelDump,
    .arrive .charge "a1:charge" sampleCharge.modelDump, .find 0, .find 1, .find 2, .inject 0 false,
    .inject 1 false, .inject 2 false, .apply 2 "0123456789abcdef" 7, .apply 1 "fedcba9876543210" 8,
    .answer 0, .answer 1, .answer 2]

theorem overlapping_charges_idempotent :
    ∃ s, run (toolStep ⟨"1.0", 1, none⟩ modelCodec) (ToolState.initial ⟨"1.0", 1, none⟩)
        overlappingCharges = some s ∧
      [s.reply? 0, s.reply? 1, s.reply? 2] =
        [some (throttledReply "1.0"), some (.result ⟨.charge, "charge_0123456789abcdef", true⟩),
          some (.result ⟨.charge, "charge_0123456789abcdef", false⟩)] ∧
      IdempotencySound ⟨"1.0", 1, none⟩ modelCodec s := by
  have replies : (run (toolStep ⟨"1.0", 1, none⟩ modelCodec) (ToolState.initial ⟨"1.0", 1, none⟩)
      overlappingCharges).map (fun s => [s.reply? 0, s.reply? 1, s.reply? 2]) =
        some [some (throttledReply "1.0"), some (.result ⟨.charge, "charge_0123456789abcdef", true⟩),
          some (.result ⟨.charge, "charge_0123456789abcdef", false⟩)] := by decide +kernel
  obtain ⟨s, ran, replies⟩ := Option.map_eq_some_iff.mp replies
  exact ⟨s, ran, replies, tool_idempotent model_codec_injective
    (reachable_run overlappingCharges (fun _ _ _ => trivial) .start ran)⟩

end Example

end Crashsafe
