import Crashsafe.Library.JsonText
import Crashsafe.Requests

/- The JSON columns of the engine's database: the text `_json_dump` writes into payload_json,
   request_json and output_json, and what `json.loads` and the event's own payload model make of
   it. A number with a fraction, a NaN or an infinity has no text here. -/
namespace Crashsafe
open Rows Replay Execution JsonText

section Texts

mutual

def Json.value : Json → Option Value
  | .null => some .null
  | .bool b => some (.bool b)
  | .num q => if q.den = 1 then some (.int q.num) else none
  | .nan | .inf _ => none
  | .str s => some (.str s)
  | .arr items => (itemValues items).map .arr
  | .obj fields => (fieldValues fields).map .obj

def itemValues : List Json → Option (List Value)
  | [] => some []
  | j :: rest => do some ((← j.value) :: (← itemValues rest))

def fieldValues : List (String × Json) → Option (List (String × Value))
  | [] => some []
  | (k, j) :: rest => do some ((k, ← j.value) :: (← fieldValues rest))

end

mutual

def ofValue : Value → Json
  | .null => .null
  | .bool b => .bool b
  | .int n => .num n
  | .str s => .str s
  | .arr items => .arr (ofItems items)
  | .obj fields => .obj (ofFields fields)

def ofItems : List Value → List Json
  | [] => []
  | v :: rest => ofValue v :: ofItems rest

def ofFields : List (String × Value) → List (String × Json)
  | [] => []
  | (k, v) :: rest => (k, ofValue v) :: ofFields rest

end

/-- `json.dumps(value, sort_keys=True, separators=(",", ":"))`. CPython's limit of 4300 digits on
    the text of an integer is left out: no decoded value reaches it. -/
def jsonDump (j : Json) : Option String := j.value.map fun v => dumps false (sortKeys v)

def jsonLoads (text : String) : Option Json := (loads text).map ofValue

mutual

theorem value_of_value : ∀ v : Value, (ofValue v).value = some v
  | .null | .bool _ | .str _ => rfl
  | .int n => rfl
  | .arr items => by rw [ofValue, Json.value, item_values_of items, Option.map_some]
  | .obj fields => by rw [ofValue, Json.value, field_values_of fields, Option.map_some]

theorem item_values_of : ∀ items : List Value, itemValues (ofItems items) = some items
  | [] => rfl
  | v :: rest => by
    simp only [ofItems, itemValues, value_of_value v, item_values_of rest, Option.bind_eq_bind,
      Option.bind_some]

theorem field_values_of : ∀ fields : List (String × Value), fieldValues (ofFields fields) = some fields
  | [] => rfl
  | (k, v) :: rest => by
    simp only [ofFields, fieldValues, value_of_value v, field_values_of rest, Option.bind_eq_bind,
      Option.bind_some]

end

/- The text of `j` is read as `a`. -/
def Reads {α : Type} (read : Json → Option α) (j : Json) (a : α) : Prop :=
  ∃ v : Value, j.value = some v ∧ (sortKeys v).Distinct ∧ read (ofValue (sortKeys v)) = some a

theorem reads_text {α : Type} {read : Json → Option α} {j : Json} {a : α} (reads : Reads read j a) :
    ((jsonDump j).bind jsonLoads).bind read = some a := by
  obtain ⟨v, value, distinct, back⟩ := reads
  simp only [jsonDump, value, Option.map_some, Option.bind_some, jsonLoads,
    loads_dumps false distinct, back]

/- A dict whose keys are in order, those of the dicts inside it too. -/
def StoredDict (j : Json) : Prop :=
  ∃ fields : List (String × Value), (Value.obj fields).Sorted ∧ j = ofValue (.obj fields)

end Texts

section Payloads

/- What pydantic makes of a datetime in JSON mode, and reads back. -/
structure InstantText where
  write : Datetime → String
  read : String → Option Datetime

def InstantText.RoundTrips (instants : InstantText) : Prop :=
  ∀ t, 0 ≤ t → t ≤ maxDatetime → instants.read (instants.write t) = some t

def ofOption {α : Type} (write : α → Json) : Option α → Json
  | some a => write a
  | none => .null

def StepDefinition.modelDump (d : StepDefinition) : Json :=
  .obj [("id", .str d.id), ("position", .num d.position), ("operation", .str d.operation.value),
    ("depends_on", .arr (d.dependsOn.map .str)), ("request", d.request),
    ("operation_key", .str d.operationKey), ("tool_key", .str d.toolKey)]

/-- `canonical_payload`, which is `payload.model_dump(mode="json")`. -/
def EventPayload.modelDump (instants : InstantText) : EventPayload → Json
  | .workflowRunCreated created =>
    .obj [("name", .str created.name), ("steps", .arr (created.steps.map (·.modelDump)))]
  | .stepAttemptStarted started =>
    .obj [("operation", .str started.operation.value), ("request", started.request),
      ("operation_key", .str started.operationKey), ("worker_id", ofOption .str started.workerId),
      ("fence_token", ofOption (fun n : Int => .num n) started.fenceToken)]
  | .stepRetryScheduled retry =>
    .obj [("error", .str retry.error), ("next_attempt_at", .str (instants.write retry.nextAttemptAt))]
  | .stepCompleted completed => .obj [("output", completed.output)]
  | .stepFailed failed => .obj [("error", .str failed.error)]
  | .workflowRunCompleted => .obj []
  | .workflowRunFailed failed => .obj [("step_id", .str failed.stepId), ("error", .str failed.error)]

def Json.text? : Json → Option String
  | .str s => some s
  | _ => none

def Json.integer? : Json → Option Int
  | .num q => if q.den = 1 then some q.num else none
  | _ => none

def Json.truth? : Json → Option Bool
  | .bool b => some b
  | _ => none

def Json.dict? : Json → Option Json
  | .obj fields => some (.obj fields)
  | _ => none

def Json.items? : Json → Option (List Json)
  | .arr items => some items
  | _ => none

def Json.operation? (j : Json) : Option StepName :=
  j.text?.bind fun text => [StepName.charge, .provision, .notify].find? fun name => name.value = text

/- A field with the default None. -/
def optional {α : Type} (read : Json → Option α) : Option Json → Option (Option α)
  | none | some .null => some none
  | some j => (read j).map some

/- `extra="forbid"`. -/
def Json.only (names : List String) : Json → Bool
  | .obj fields => fields.all fun f => f.1 ∈ names
  | _ => false

def readDefinition (j : Json) : Option StepDefinition :=
  if j.only ["id", "position", "operation", "depends_on", "request", "operation_key", "tool_key"] then do
    some {
      id := ← (j.get? "id").bind Json.text?
      position := ← (j.get? "position").bind Json.integer?
      operation := ← (j.get? "operation").bind Json.operation?
      dependsOn := ← ((j.get? "depends_on").bind Json.items?).bind (List.mapM Json.text?)
      request := ← (j.get? "request").bind Json.dict?
      operationKey := ← (j.get? "operation_key").bind Json.text?
      toolKey := ← ((j.get? "tool_key").getD (.str "mock-tool")).text? }
  else none

/-- `PAYLOAD_MODELS[event_type].model_validate(payload)`. What pydantic would convert first, a
    numeric text for an int, say, is not read; nothing the storage writes needs it. -/
def modelValidate (instants : InstantText) (eventType : EventType) (j : Json) : Option EventPayload :=
  match eventType with
  | .workflowRunCreated =>
    if j.only ["name", "steps"] then do
      let name ← (j.get? "name").bind Json.text?
      let steps ← ((j.get? "steps").bind Json.items?).bind (List.mapM readDefinition)
      some (.workflowRunCreated ⟨name, steps⟩)
    else none
  | .stepAttemptStarted =>
    if j.only ["operation", "request", "operation_key", "worker_id", "fence_token"] then do
      some (.stepAttemptStarted {
        operation := ← (j.get? "operation").bind Json.operation?
        request := ← (j.get? "request").bind Json.dict?
        operationKey := ← (j.get? "operation_key").bind Json.text?
        workerId := ← optional Json.text? (j.get? "worker_id")
        fenceToken := ← optional Json.integer? (j.get? "fence_token") })
    else none
  | .stepRetryScheduled =>
    if j.only ["error", "next_attempt_at"] then do
      let error ← (j.get? "error").bind Json.text?
      let deadline ← ((j.get? "next_attempt_at").bind Json.text?).bind instants.read
      some (.stepRetryScheduled ⟨error, deadline⟩)
    else none
  | .stepCompleted =>
    if j.only ["output"] then do
      let output ← (j.get? "output").bind Json.dict?
      some (.stepCompleted ⟨output⟩)
    else none
  | .stepFailed =>
    if j.only ["error"] then do
      let error ← (j.get? "error").bind Json.text?
      some (.stepFailed ⟨error⟩)
    else none
  | .workflowRunCompleted => if j.only [] then some .workflowRunCompleted else none
  | .workflowRunFailed =>
    if j.only ["step_id", "error"] then do
      let stepId ← (j.get? "step_id").bind Json.text?
      let error ← (j.get? "error").bind Json.text?
      some (.workflowRunFailed ⟨stepId, error⟩)
    else none

/- The values a payload carries can be written. -/
def EventPayload.Storable : EventPayload → Prop
  | .workflowRunCreated created => ∀ d ∈ created.steps, StoredDict d.request
  | .stepAttemptStarted started => StoredDict started.request
  | .stepRetryScheduled retry => 0 ≤ retry.nextAttemptAt ∧ retry.nextAttemptAt ≤ maxDatetime
  | .stepCompleted completed => StoredDict completed.output
  | _ => True

theorem reads_dict {j : Json} (stored : StoredDict j) : Reads Json.dict? j j := by
  obtain ⟨fields, sorted, rfl⟩ := stored
  refine ⟨.obj fields, value_of_value _, ?_, ?_⟩
  · rw [sort_sorted _ sorted]
    exact sorted_distinct _ sorted
  · rw [sort_sorted _ sorted]
    rfl

theorem reads_string (s : String) : Reads Json.text? (.str s) s := ⟨.str s, rfl, trivial, rfl⟩

theorem reads_integer (n : Int) : Reads Json.integer? (.num n) n := ⟨.int n, rfl, trivial, rfl⟩

theorem reads_items {α : Type} {read : Json → Option α} {write : α → Json} {as : List α}
    (each : ∀ a ∈ as, Reads read (write a) a) : ∃ vs : List Value,
      itemValues (as.map write) = some vs ∧ itemsDistinct (sortItems vs) ∧
        (ofItems (sortItems vs)).mapM read = some as := by
  induction as with
  | nil => exact ⟨[], rfl, trivial, rfl⟩
  | cons a as rest =>
    obtain ⟨vs, values, distinct, back⟩ := rest fun b inside => each b (List.mem_cons_of_mem a inside)
    obtain ⟨v, value, first, here⟩ := each a List.mem_cons_self
    refine ⟨v :: vs, ?_, ⟨first, distinct⟩, ?_⟩
    · simp only [List.map_cons, itemValues, value, values, Option.bind_eq_bind, Option.bind_some]
    · simp only [sortItems, ofItems, List.mapM_cons, here, back, Option.bind_eq_bind,
        Option.bind_some]
      rfl

theorem operation_value (name : StepName) : (Json.str name.value).operation? = some name := by
  cases name <;> rfl

theorem reads_definition {d : StepDefinition} (stored : StoredDict d.request) :
    Reads readDefinition d.modelDump d := by
  obtain ⟨request, value, distinct, dict⟩ := reads_dict stored
  obtain ⟨depends, values, apart, back⟩ := reads_items fun s (_ : s ∈ d.dependsOn) =>
    reads_string s
  refine ⟨.obj [("id", .str d.id), ("position", .int d.position), ("operation", .str d.operation.value),
    ("depends_on", .arr depends), ("request", request), ("operation_key", .str d.operationKey),
    ("tool_key", .str d.toolKey)], ?_, ?_, ?_⟩
  · simp [StepDefinition.modelDump, Json.value, fieldValues, values, value]
  · simp [sortKeys, sortFields, List.insertionSort, List.orderedInsert, Value.Distinct,
      fieldsDistinct, apart, distinct]
  · simp [sortKeys, sortFields, List.insertionSort, List.orderedInsert, ofValue, ofFields,
      readDefinition, Json.only, Json.get?, Json.text?, Json.integer?, Json.items?, operation_value,
      back, dict]

theorem reads_optional {α : Type} {read : Json → Option α} {write : α → Json}
    (each : ∀ a, Reads read (write a) a) (never : read .null = none) (given : Option α) :
    ∃ v : Value, (ofOption write given).value = some v ∧ (sortKeys v).Distinct ∧
      optional read (some (ofValue (sortKeys v))) = some given := by
  cases given with
  | none => exact ⟨.null, rfl, trivial, rfl⟩
  | some a =>
    obtain ⟨v, value, distinct, back⟩ := each a
    refine ⟨v, value, distinct, ?_⟩
    cases shown : ofValue (sortKeys v) with
    | null =>
      rw [shown, never] at back
      cases back
    | _ => simp only [optional, ← shown, back, Option.map_some]

theorem reads_payload {instants : InstantText} (roundTrips : instants.RoundTrips)
    {payload : EventPayload} (storable : payload.Storable) :
    Reads (modelValidate instants payload.eventType) (payload.modelDump instants) payload := by
  cases payload with
  | workflowRunCreated created =>
    obtain ⟨steps, values, apart, back⟩ := reads_items fun d (inside : d ∈ created.steps) =>
      reads_definition (storable d inside)
    refine ⟨.obj [("name", .str created.name), ("steps", .arr steps)], ?_, ?_, ?_⟩
    · simp [EventPayload.modelDump, Json.value, fieldValues, values]
    · simp [sortKeys, sortFields, List.insertionSort, Value.Distinct, fieldsDistinct, apart]
    · simp [sortKeys, sortFields, List.insertionSort, ofValue, ofFields, modelValidate,
        EventPayload.eventType, Json.only, Json.get?, Json.text?, Json.items?, back]
  | stepAttemptStarted started =>
    obtain ⟨request, value, distinct, dict⟩ := reads_dict storable
    obtain ⟨worker, written, same, worked⟩ := reads_optional reads_string rfl started.workerId
    obtain ⟨fence, numbered, same', fenced⟩ := reads_optional reads_integer rfl started.fenceToken
    refine ⟨.obj [("operation", .str started.operation.value), ("request", request),
      ("operation_key", .str started.operationKey), ("worker_id", worker), ("fence_token", fence)],
      ?_, ?_, ?_⟩
    · simp [EventPayload.modelDump, Json.value, fieldValues, value, written, numbered]
    · simp [sortKeys, sortFields, List.insertionSort, List.orderedInsert, Value.Distinct,
        fieldsDistinct, distinct, same, same']
    · simp [sortKeys, sortFields, List.insertionSort, List.orderedInsert, ofValue, ofFields,
        modelValidate, EventPayload.eventType, Json.only, Json.get?, Json.text?, operation_value,
        dict, worked, fenced]
  | stepRetryScheduled retry =>
    refine ⟨.obj [("error", .str retry.error),
      ("next_attempt_at", .str (instants.write retry.nextAttemptAt))], rfl, ?_, ?_⟩
    · simp [sortKeys, sortFields, List.insertionSort, Value.Distinct, fieldsDistinct]
    · simp [sortKeys, sortFields, List.insertionSort, ofValue, ofFields, modelValidate,
        EventPayload.eventType, Json.only, Json.get?, Json.text?,
        roundTrips _ storable.1 storable.2]
  | stepCompleted completed =>
    obtain ⟨output, value, distinct, dict⟩ := reads_dict storable
    refine ⟨.obj [("output", output)], ?_, ?_, ?_⟩
    · simp [EventPayload.modelDump, Json.value, fieldValues, value]
    · simp [sortKeys, sortFields, Value.Distinct, fieldsDistinct, distinct]
    · simp [sortKeys, sortFields, ofValue, ofFields, modelValidate, EventPayload.eventType,
        Json.only, Json.get?, dict]
  | stepFailed failed =>
    refine ⟨.obj [("error", .str failed.error)], rfl, ?_, rfl⟩
    simp [sortKeys, sortFields, Value.Distinct, fieldsDistinct]
  | workflowRunCompleted => exact ⟨.obj [], rfl, ⟨List.nodup_nil, trivial⟩, rfl⟩
  | workflowRunFailed failed =>
    refine ⟨.obj [("step_id", .str failed.stepId), ("error", .str failed.error)], rfl, ?_, ?_⟩
    · simp [sortKeys, sortFields, List.insertionSort, Value.Distinct, fieldsDistinct]
    · simp [sortKeys, sortFields, List.insertionSort, ofValue, ofFields, modelValidate,
        EventPayload.eventType, Json.only, Json.get?, Json.text?]

end Payloads

section Runs
variable {d : Deployment} {s t : State} {a : Action} {runId : String} {row : StepRow}

theorem request_stored (q : StepRequest) : StoredDict q.modelDump := by
  cases q with
  | charge customerId amountCents =>
    exact ⟨[("amount_cents", .int amountCents), ("customer_id", .str customerId)],
      ⟨by simp, by simp, trivial, trivial, trivial⟩, rfl⟩
  | provision customerId plan =>
    exact ⟨[("customer_id", .str customerId), ("plan", .str plan)],
      ⟨by simp, by simp, trivial, trivial, trivial⟩, rfl⟩
  | notify customerId email message =>
    exact ⟨[("customer_id", .str customerId), ("email", .str email), ("message", .str message)],
      ⟨by simp, by simp, trivial, trivial, trivial, trivial⟩, rfl⟩

theorem result_stored (r : ToolResult) : StoredDict r.modelDump :=
  ⟨[("deduplicated", .bool r.deduplicated), ("operation", .str r.operation.value),
    ("reference_id", .str r.referenceId)], ⟨by simp, by simp, trivial, trivial, trivial, trivial⟩, rfl⟩

/- The values a write stores have a text. -/
def Write.Storable : Write → Prop
  | .retry _ nextAttemptAt => 0 ≤ nextAttemptAt ∧ nextAttemptAt ≤ maxDatetime
  | .complete output => StoredDict output
  | _ => True

theorem plus_seconds_range {now deadline : Datetime} {delay : PyFloat}
    (added : now.plusSeconds delay = some deadline) : 0 ≤ deadline ∧ deadline ≤ maxDatetime := by
  unfold Datetime.plusSeconds at added
  split at added
  · cases added
  · split at added
    · rename_i inside
      cases added
      exact inside
    · cases added

theorem decided_storable {settings : Settings} {step : StepRecord} {now : Datetime}
    {outcome : Outcome} {decision : Decision}
    (chosen : decideOutcome settings step now outcome = some decision) : decision.write.Storable := by
  cases outcome with
  | result result =>
    cases chosen
    exact result_stored result
  | retryable message retryAfterSeconds throttleTool =>
    simp only [decideOutcome, handleRetryableFailure] at chosen
    split at chosen
    · cases chosen
      trivial
    · split at chosen
      · cases chosen
      · obtain ⟨deadline, added, rfl⟩ := Option.map_eq_some_iff.mp chosen
        exact plus_seconds_range added
  | permanent message =>
    cases chosen
    trivial
  | raised => cases chosen

/- The event carries the payload of its type, and the payload has a text. -/
def EventStorable (e : WorkflowRunEvent) : Prop :=
  ∃ payload, e.payload = some payload ∧ e.eventType = payload.eventType ∧ payload.Storable

/- What the JSON columns of a run hold. -/
structure Columned (v : RunView) : Prop where
  events : ∀ e ∈ v.events, EventStorable e
  outputs : ∀ row ∈ v.steps, ∀ output, row.output = some output → StoredDict output

section Views
variable {v w : RunView} {now : Datetime}

theorem columned_append (columned : Columned v) {payload : EventPayload} (storable : payload.Storable)
    (stepId : Option String) (attempt : Option Int) (version : Int) :
    Columned (v.append runId payload now stepId attempt version) := by
  refine ⟨fun e member => ?_, columned.outputs⟩
  rcases List.mem_append.mp member with old | new
  · exact columned.events e old
  · rw [List.mem_singleton.mp new]
    exact ⟨payload, rfl, rfl, storable⟩

theorem columned_set (columned : Columned v) {set : StepRow → StepRow} (stepId : String)
    (writes : ∀ r output, (set r).output = some output → r.output = some output ∨ StoredDict output) :
    Columned (v.setStep stepId set) := by
  refine ⟨columned.events, fun row member output held => ?_⟩
  obtain ⟨old, inside, same⟩ := mem_updateWhere.mp member
  split at same
  · rw [← same] at held
    rcases writes old output held with before | stored
    · exact columned.outputs old inside output before
    · exact stored
  · exact columned.outputs old inside output (same ▸ held)

theorem columned_run (columned : Columned v) (set : WorkflowRunRow → WorkflowRunRow) :
    Columned (v.setRun set) := ⟨columned.events, columned.outputs⟩

theorem columned_move (columned : Columned v) (requested : StoredDict row.request) {write : Write}
    (storable : write.Storable) (move : RunMove runId v row now write w) : Columned w := by
  cases move with
  | attempted ownerId fenceToken runnable ready paired =>
    have started : (attemptPayload row ownerId fenceToken).Storable := requested
    exact columned_set (columned_append columned started _ _ _) _ fun r output held => .inl held
  | retried error nextAttemptAt active =>
    have scheduled : (EventPayload.stepRetryScheduled ⟨error, nextAttemptAt⟩).Storable := storable
    exact columned_set (columned_append columned scheduled _ _ _) _ fun r output held => .inl held
  | failed error active =>
    have ended : (EventPayload.stepFailed ⟨error⟩).Storable := trivial
    have closed : (EventPayload.workflowRunFailed ⟨row.id, error⟩).Storable := trivial
    refine columned_run (columned_set (columned_append (columned_append columned ended _ _ _) closed
      _ _ _) _ fun r output held => ?_) _
    exact .inl held
  | completed output active w written more =>
    have stored : (EventPayload.stepCompleted ⟨output⟩).Storable := storable
    rw [written]
    refine columned_set (columned_append columned stored _ _ _) _ fun r output' held => .inr ?_
    cases held
    exact storable
  | finished output active w written all =>
    have stored : (EventPayload.stepCompleted ⟨output⟩).Storable := storable
    have closed : EventPayload.workflowRunCompleted.Storable := trivial
    rw [written]
    refine columned_run (columned_append (columned_set (columned_append columned stored _ _ _) _
      fun r output' held => .inr ?_) closed _ _ _) _
    cases held
    exact storable

/-- The outputs of a folded history are those of its StepCompleted events. -/
theorem folded_outputs {events : List WorkflowRunEvent} {run : WorkflowRun} {last : Int}
    (folded : foldHistory runId events = .ok (some run, last)) {step : StepRecord}
    (member : step ∈ run.steps) {output : Json} (held : step.output = some output) :
    ∃ e ∈ events, e.payload = some (.stepCompleted ⟨output⟩) := by
  induction events using List.reverseRecOn generalizing run last step with
  | nil => cases folded
  | append_singleton seen e earlier =>
    have later : (∃ e ∈ seen, e.payload = some (.stepCompleted ⟨output⟩)) →
        ∃ e' ∈ seen ++ [e], e'.payload = some (.stepCompleted ⟨output⟩) := by
      rintro ⟨e', inside, same⟩
      exact ⟨e', List.mem_append_left [e] inside, same⟩
    obtain ⟨⟨before, n⟩, folding, taken⟩ := replay_snoc_ok.mp folded
    obtain ⟨_, _, _, run', result, move⟩ := reduce_event_ok taken
    cases result
    rcases move with ⟨created, first, creation, rfl⟩ | ⟨run₀, rfl, _, advance⟩
    · obtain ⟨definition, _, rfl⟩ := List.mem_map.mp member
      cases held
    · cases advance with
      | completed kind => exact later (earlier folding member held)
      | failed failed step kind => exact later (earlier folding member held)
      | step index old after stepId named found advance =>
        have present := List.mem_of_getElem? (find_step_with_index_ok found).1
        rcases List.mem_or_eq_of_mem_set member with old | rfl
        · exact later (earlier folding old held)
        · cases advance with
          | completed completed kind payload =>
            cases held
            exact ⟨e, List.mem_append_right seen List.mem_cons_self, payload⟩
          | _ => exact later (earlier folding present held)

end Views

/- What processes and rows hold that a JSON column may come to hold. -/
structure Texted (s : State) : Prop where
  decisions : ∀ p step decision, (s.pc p).decision? = some (step, decision) → decision.write.Storable
  columned : ∀ runId, Columned (s.db.view runId)

theorem requested_stored (coherent : Coherent s) (member : row ∈ (s.db.view runId).steps) :
    StoredDict row.request := by
  obtain ⟨q, _, _, same⟩ := (coherent.tidy runId).submitted row member
  rw [same]
  exact request_stored q

theorem columned_created {db db' : Database} {definition : WorkflowDefinition}
    {toolKey : Option String} {defaultToolKey : String} {now : Datetime}
    (absent : db.view runId = RunView.empty)
    (done : createWorkflowRun db definition toolKey defaultToolKey runId now = .ok db') :
    Columned (db'.view runId) := by
  refine ⟨fun e member => ?_, fun row member output held => ?_⟩
  · have events := congrArg RunView.events (create_ok absent done).1
    rw [events] at member
    rw [List.mem_singleton.mp member]
    refine ⟨_, rfl, rfl, fun d inside => ?_⟩
    obtain ⟨step, _, _, _, _, request, _⟩ := materialized_mem inside
    rw [request]
    exact request_stored step.request
  · rw [(created_row absent done member).output] at held
    cases held

theorem columned_rebuilt {history : List WorkflowRunEvent} {rebuilt : WorkflowRun}
    {created : WorkflowRunCreatedPayload} {v : RunView} (columned : Columned v)
    (reduced : reduceWorkflowRunHistory history = .ok rebuilt) (seen : history <+: v.events) :
    Columned { projectionOf rebuilt created v with leases := [] } := by
  refine ⟨columned.events, fun row member output held => ?_⟩
  obtain ⟨first, rest, last, _, folded, _⟩ := reduce_history_ok.mp reduced
  obtain ⟨step, inside, rfl⟩ := List.mem_map.mp member
  obtain ⟨e, among, completed⟩ := folded_outputs folded inside held
  obtain ⟨payload, carried, _, storable⟩ := columned.events e (seen.subset among)
  rw [completed] at carried
  cases carried
  exact storable

theorem columned_effect (coherent : Coherent s) (texted : Texted s) (effect : Effect d s a t)
    (runId : String) : Columned (t.db.view runId) := by
  cases effect_view coherent effect runId with
  | same view => exact view ▸ texted.columned runId
  | created definition toolKey defaultToolKey now absent done => exact columned_created absent done
  | moved row now write member move mover =>
    refine columned_move (texted.columned runId) (requested_stored coherent member) ?_ move
    cases mover with
    | recorded => trivial
    | decided p claim step decision now leaseNow was =>
      exact texted.decisions p step decision (by rw [was]; rfl)
  | granted owner now claim granted =>
    rw [granted_view granted runId]
    exact ⟨(texted.columned runId).events, (texted.columned runId).outputs⟩
  | touched pairs rest =>
    rw [rest]
    exact ⟨(texted.columned runId).events, (texted.columned runId).outputs⟩
  | rebuilt p history rebuilt created acted was done =>
    have held : (s.pc p).reads? = some (runId, history, rebuilt) := by rw [was]; rfl
    obtain ⟨reduced, seen⟩ := coherent.reads p runId history rebuilt held
    rw [(rebuilt_views coherent held done).1]
    exact columned_rebuilt (texted.columned runId) reduced seen

theorem texted_start : Texted State.initial := by
  constructor
  · intro p step decision held
    cases held
  · intro runId
    constructor
    · intro e member
      cases member
    · intro row member
      cases member

theorem texted_reachable {allowed : State → Action → Prop}
    (reached : Reachable (step d) allowed State.initial s) : Texted s := by
  refine reachable_invariant texted_start ?_ reached
  intro s a t before texted _ taken
  have effect := step_effect taken
  refine ⟨fun p step decision held => ?_, columned_effect (coherent_reachable before) texted effect⟩
  rcases decision_effect effect held with earlier | ⟨_, _, _, _, _, _, _, _, chosen⟩
  · exact texted.decisions p step decision earlier
  · exact decided_storable chosen

end Runs

/-- The payload_json of an event, loaded by `_event_from_row` and validated by the reducer. -/
def payloadReadBack (instants : InstantText) (eventType : EventType) (payload : EventPayload) :
    Option EventPayload :=
  ((jsonDump (payload.modelDump instants)).bind jsonLoads).bind (modelValidate instants eventType)

def columnReadBack (j : Json) : Option Json := (jsonDump j).bind jsonLoads

theorem column_stored {j : Json} (stored : StoredDict j) : columnReadBack j = some j := by
  obtain ⟨fields, sorted, rfl⟩ := stored
  simp only [columnReadBack, jsonDump, value_of_value, Option.map_some, Option.bind_some, jsonLoads,
    sort_sorted _ sorted, loads_dumps false (sorted_distinct _ sorted)]

/-- Whatever the processes have done, rebuilds included, every payload, request and output is what
    the text of its column is read as. -/
theorem columns_read_back {d : Deployment} {s : State} {instants : InstantText}
    (roundTrips : instants.RoundTrips) (reached : Reachable (step d) anyStep State.initial s) :
    (∀ e ∈ s.db.workflowRunEvents, ∃ payload, e.payload = some payload ∧
      payloadReadBack instants e.eventType payload = some payload) ∧
    ∀ row ∈ s.db.steps, columnReadBack row.request = some row.request ∧
      ∀ output, row.output = some output → columnReadBack output = some output := by
  have texted := texted_reachable reached
  constructor
  · intro e member
    have inside : e ∈ (s.db.view e.runId).events := mem_ofKey.mpr ⟨member, rfl⟩
    obtain ⟨payload, carried, kind, storable⟩ := (texted.columned e.runId).events e inside
    refine ⟨payload, carried, ?_⟩
    rw [kind]
    exact reads_text (reads_payload roundTrips storable)
  · intro row member
    have inside : row ∈ (s.db.view row.runId).steps := mem_ofKey.mpr ⟨member, rfl⟩
    refine ⟨column_stored (requested_stored (coherent_reachable reached) inside), ?_⟩
    intro output held
    exact column_stored ((texted.columned row.runId).outputs row inside output held)

section Example

/- What is written for the one deadline of the example; other instants stand as their numbers. -/
def sampleInstants : InstantText where
  write t := if t = 1000005 then "0001-01-01T00:00:01.000005Z" else String.ofList (intText t)
  read text :=
    if text = "0001-01-01T00:00:01.000005Z" then some 1000005 else (readInt text.toList).map Prod.fst

theorem sample_round_trips : sampleInstants.RoundTrips := by
  intro t _ _
  have open_end : Delimited [] := fun c at_head => by cases at_head
  have number : readInt (intText t) = some (t, []) := by
    have read := read_int t open_end
    rwa [List.append_nil] at read
  by_cases deadline : t = 1000005
  · rw [deadline]
    rfl
  · have apart : String.ofList (intText t) ≠ "0001-01-01T00:00:01.000005Z" := by
      intro same
      have chars := congrArg String.toList same
      rw [String.toList_ofList] at chars
      rw [chars] at number
      have stops : readInt "0001-01-01T00:00:01.000005Z".toList = none := by decide
      rw [stops] at number
      cases number
    simp only [sampleInstants, if_neg deadline, if_neg apart, String.toList_ofList, number,
      Option.map_some]

def payloadTexts (db : Database) : List String :=
  (db.workflowRunEvents.filterMap (·.payload)).filterMap fun payload =>
    jsonDump (payload.modelDump sampleInstants)

theorem retried_charge_reads_back :
    ∃ s, run (step sharedWorker) State.initial retriedCharge = some s ∧
      (payloadTexts s.db)[2]? =
        some "\x7b\"error\":\"busy\",\"next_attempt_at\":\"0001-01-01T00:00:01.000005Z\"\x7d" ∧
      (∀ e ∈ s.db.workflowRunEvents, ∃ payload, e.payload = some payload ∧
        payloadReadBack sampleInstants e.eventType payload = some payload) ∧
      ∀ row ∈ s.db.steps, columnReadBack row.request = some row.request ∧
        ∀ output, row.output = some output → columnReadBack output = some output := by
  have texts : (run (step sharedWorker) State.initial retriedCharge).map
      (fun s => (payloadTexts s.db)[2]?) =
      some (some "\x7b\"error\":\"busy\",\"next_attempt_at\":\"0001-01-01T00:00:01.000005Z\"\x7d") := by
    decide +kernel
  obtain ⟨s, ran, text⟩ := Option.map_eq_some_iff.mp texts
  have reached : Reachable (step sharedWorker) anyStep State.initial s :=
    reachable_run retriedCharge (fun _ _ _ => trivial) .start ran
  exact ⟨s, ran, text, columns_read_back sample_round_trips reached⟩

end Example

end Crashsafe
