import Crashsafe.Columns
import Crashsafe.RetryBudget
import Crashsafe.ExactlyOnce

/- The workers, the mock tool and the HTTP between them as one closed system: a worker hears what
   the tool has answered to the worker's own request, or an httpx error. -/
namespace Crashsafe
open Rows Execution JsonText

deriving instance DecidableEq for Outcome

/- The bodies of the tool's replies, and what the gateway makes of a body. -/
structure Wire where
  body : Reply → String
  codec : GatewayCodec

def Wire.RoundTrips (wire : Wire) : Prop :=
  ∀ result, wire.codec.toolResult (wire.body (.result result)) = some result

def Wire.response (wire : Wire) (reply : Reply) : Response :=
  match reply with
  | .result _ => ⟨200, none, wire.body reply⟩
  | .refused statusCode _ retryAfter => ⟨statusCode, retryAfter, wire.body reply⟩

/-- The tool has answered the request the process waits for with this reply. -/
def Answers (w : World) (p : Nat) (reply : Reply) : Prop :=
  ∃ i < w.deliveries.length, w.deliveries[i]? = (w.engine.pc p).waiting?.map Prod.snd ∧
    w.tool.calls[i]?.bind (·.phase.answered?) = some reply

/-- What `gateway.execute` may return to or raise in the process. -/
inductive Heard (wire : Wire) (w : World) (p : Nat) : Outcome → Prop where
  | transport (message : String) : Heard wire w p (execute wire.codec (.requestError message))
  | replied (reply : Reply) (answers : Answers w p reply) :
      Heard wire w p (execute wire.codec (.response (wire.response reply)))

/-- No projection is rebuilt, and the workers hear nothing but the tool. -/
def closed (wire : Wire) (w : World) : WorldAction → Prop
  | .engine (.readHistory ..) => False
  | .engine (.resolve p outcome _) => Heard wire w p outcome
  | _ => True

section Replies
variable {d : Deployment} {config : ToolConfig} {codec : ToolCodec} {wire : Wire} {w w' : World}

/- The replies the handler can give. -/
inductive Given : Reply → Prop where
  | result (result : ToolResult) : Given (.result result)
  | conflict : Given conflictReply
  | throttled (retryAfter : String) : Given (throttledReply retryAfter)
  | error : Given errorReply

def Phase.Known (phase : Phase) : Prop := ∀ reply, phase.reply? = some reply → Given reply

theorem known_advance {s : ToolState} {i : Nat} {call : ToolCall} {phase : Phase}
    (known : ∀ x ∈ s.calls, x.phase.Known) (next : phase.Known) :
    ∀ x ∈ (s.advance i call phase).calls, x.phase.Known := by
  intro x member
  rcases List.mem_or_eq_of_mem_set member with old | rfl
  · exact known x old
  · exact next

theorem known_replying {reply : Reply} (given : Given reply) : (Phase.replying reply).Known := by
  intro other replied
  cases replied
  exact given

theorem known_working {phase : Phase} (silent : phase.reply? = none) : phase.Known := by
  intro reply replied
  rw [silent] at replied
  cases replied

theorem known_effect {s t : ToolState} {a : ToolAction} (known : ∀ x ∈ s.calls, x.phase.Known)
    (effect : ToolEffect config codec s a t) : ∀ x ∈ t.calls, x.phase.Known := by
  cases effect with
  | arrived fresh =>
    intro x member
    rcases List.mem_append.mp member with old | new
    · exact known x old
    · rw [List.mem_singleton.mp new]
      rcases fresh with ⟨request, _, started⟩ | failed
      · exact known_working (by rw [started]; rfl)
      · exact failed ▸ known_replying .error
  | missed => exact known_advance known (known_working rfl)
  | found => exact known_advance known (known_replying (.result _))
  | conflicted => exact known_advance known (known_replying .conflict)
  | collided => exact known_advance known (known_replying .error)
  | applied => exact known_advance known (known_replying (.result _))
  | injected held was outcome =>
    refine known_advance (s := s) known ?_
    rcases outcome with admitted | throttled
    · exact admitted ▸ known_working rfl
    · exact throttled ▸ known_replying (.throttled _)
  | answered held was =>
    refine known_advance known fun reply replied => ?_
    refine known _ (List.mem_of_getElem? held) reply ?_
    rw [was]
    exact replied
  | failed => exact known_advance known (known_replying .error)
  | crashed loses =>
    intro x member
    obtain ⟨call, inside, rfl⟩ := List.mem_map.mp member
    rcases loses call with same | lost
    · rw [same]
      exact known call inside
    · rw [lost]
      exact known_working rfl

/- The failures that go away by themselves. -/
inductive Transient : String → Prop where
  | transport (message : String) : Transient s!"tool transport error: {message}"
  | throttled : Transient "tool throttled the request"
  | server (statusCode : Nat) (range : 500 ≤ statusCode ∧ statusCode ≤ 599) :
    Transient s!"tool returned HTTP {statusCode}"

theorem answers_given (known : ∀ x ∈ w.tool.calls, x.phase.Known) {p : Nat} {reply : Reply}
    (answers : Answers w p reply) : Given reply ∧ ∃ i, w.tool.reply? i = some reply := by
  obtain ⟨i, _, _, answered⟩ := answers
  obtain ⟨call, held, told⟩ := Option.bind_eq_some_iff.mp answered
  have replied : call.phase.reply? = some reply := by
    cases phase : call.phase <;> simp_all [Phase.answered?, Phase.reply?]
  refine ⟨known call (List.mem_of_getElem? held) reply replied, i, ?_⟩
  rw [ToolState.reply?, held, Option.bind_some, replied]

/-- A worker hears a result of its own request or a failure that goes away. -/
theorem heard_outcome (roundTrips : wire.RoundTrips) (joined : Joined codec w)
    (known : ∀ x ∈ w.tool.calls, x.phase.Known) {p : Nat} {outcome : Outcome}
    (heard : Heard wire w p outcome) :
    (∃ result, outcome = .result result ∧ Received w p result) ∨
      ∃ message retryAfter throttleTool, outcome = .retryable message retryAfter throttleTool ∧
        Transient message := by
  cases heard with
  | transport message => exact .inr ⟨_, _, _, rfl, .transport message⟩
  | replied reply answers =>
    obtain ⟨given, i, replied⟩ := answers_given known answers
    cases given with
    | result result =>
      refine .inl ⟨result, ?_, answers⟩
      simp [execute, Wire.response, isServerError, isError, roundTrips result]
    | conflict => exact absurd replied (joined.unconflicted i)
    | throttled retryAfter => exact .inr ⟨_, _, _, rfl, .throttled⟩
    | error => exact .inr ⟨_, _, _, rfl, .server 500 (by decide)⟩

/-- In the closed system a worker completes a step only with a result it was given. -/
theorem closed_honest (roundTrips : wire.RoundTrips) (joined : Joined codec w)
    (known : ∀ x ∈ w.tool.calls, x.phase.Known) {a : WorldAction} (may : closed wire w a) :
    honest w a := by
  cases a with
  | deliver request => trivial
  | tool a => trivial
  | engine a =>
    cases a with
    | readHistory p runId => exact may
    | resolve p outcome now =>
      rcases heard_outcome roundTrips joined known may with ⟨result, rfl, received⟩ | ⟨_, _, _, rfl, _⟩
      · exact received
      · trivial
    | _ => trivial

theorem known_step (known : ∀ x ∈ w.tool.calls, x.phase.Known) {a : WorldAction}
    (taken : worldStep d config codec w a = some w') : ∀ x ∈ w'.tool.calls, x.phase.Known := by
  cases a with
  | engine a =>
    obtain ⟨s, _, rfl⟩ := Option.map_eq_some_iff.mp taken
    exact known
  | deliver request =>
    obtain ⟨r, _, arrived⟩ := Option.bind_eq_some_iff.mp taken
    obtain ⟨tool, moved, rfl⟩ := Option.map_eq_some_iff.mp arrived
    exact known_effect known (tool_step_effect moved)
  | tool a =>
    simp only [worldStep] at taken
    split at taken
    · cases taken
    · obtain ⟨tool, moved, rfl⟩ := Option.map_eq_some_iff.mp taken
      exact known_effect known (tool_step_effect moved)

theorem closed_reachable (roundTrips : wire.RoundTrips)
    (reached : Reachable (worldStep d config codec) (closed wire) (World.initial config) w) :
    Reachable (worldStep d config codec) honest (World.initial config) w ∧
      ∀ x ∈ w.tool.calls, x.phase.Known := by
  refine reachable_invariant (P := fun w =>
    Reachable (worldStep d config codec) honest (World.initial config) w ∧
      ∀ x ∈ w.tool.calls, x.phase.Known) ?_ ?_ reached
  · refine ⟨.start, fun x member => ?_⟩
    cases member
  · rintro w a w' _ ⟨before, known⟩ may taken
    exact ⟨.next before (closed_honest roundTrips (joined_reachable before) known may) taken,
      known_step known taken⟩

end Replies

section Failing
variable {d : Deployment} {config : ToolConfig} {codec : ToolCodec} {wire : Wire} {w w' : World}

/- Some worker's retry budget is spent by these attempts, and the last failure was transient. -/
def Exhausted (d : Deployment) (attempts : Int) (error : String) : Prop :=
  (∃ p, (d.settings p).maxAttempts ≤ attempts) ∧
    ∃ message, Transient message ∧ error = s!"retry budget exhausted: {message}"

/- What is failed, or about to be, has exhausted its attempts. -/
structure OnlyExhausted (d : Deployment) (s : State) : Prop where
  decisions : ∀ p step error, (s.pc p).decision? = some (step, .fail error) →
    Exhausted d step.attempts error
  rows : ∀ runId, ∀ row ∈ (s.db.view runId).steps, row.status = .failed →
    ∃ error, row.lastError = some error ∧ Exhausted d row.attempts error

theorem retryable_fails {settings : Settings} {step : StepRecord} {now : Datetime} {message error : String}
    {retryAfter : Option PyFloat} {throttleTool : Bool}
    (chosen : decideOutcome settings step now (.retryable message retryAfter throttleTool) =
      some (.fail error)) :
    settings.maxAttempts ≤ step.attempts ∧ error = s!"retry budget exhausted: {message}" := by
  simp only [decideOutcome, handleRetryableFailure] at chosen
  split at chosen
  · rename_i spent
    cases chosen
    exact ⟨spent, rfl⟩
  · split at chosen
    · cases chosen
    · obtain ⟨_, _, same⟩ := Option.map_eq_some_iff.mp chosen
      cases same

theorem failures_decided (roundTrips : wire.RoundTrips) (joined : Joined codec w)
    (known : ∀ x ∈ w.tool.calls, x.phase.Known) (only : OnlyExhausted d w.engine) {a : Action}
    {t : State} (effect : Effect d w.engine a t) (may : closed wire w (.engine a)) (p : Nat)
    (step : StepRecord) (error : String) (held : (t.pc p).decision? = some (step, .fail error)) :
    Exhausted d step.attempts error := by
  rcases decision_effect effect held with before | ⟨_, _, outcome, now, _, rfl, _, _, chosen⟩
  · exact only.decisions p step error before
  · rcases heard_outcome roundTrips joined known may with
      ⟨result, rfl, _⟩ | ⟨message, _, _, rfl, transient⟩
    · cases chosen
    · obtain ⟨spent, rfl⟩ := retryable_fails chosen
      exact ⟨⟨p, spent⟩, message, transient, rfl⟩

theorem failures_stored (reached : Reachable (step d) noRebuild State.initial w.engine)
    (only : OnlyExhausted d w.engine) {a : Action} {t : State} (effect : Effect d w.engine a t)
    (runId : String) (row : StepRow) (member : row ∈ (t.db.view runId).steps)
    (failed : row.status = .failed) :
    ∃ error, row.lastError = some error ∧ Exhausted d row.attempts error := by
  have guarded := guarded_reachable reached
  rcases row_after guarded effect member with
    old | ⟨old, now, write, inside, written, _, mover⟩ | ⟨fresh, _⟩
  · exact only.rows runId row old failed
  · cases mover with
    | recorded =>
      rw [written] at failed
      cases failed
    | decided p claim tried decision now' leaseNow was after here named pair =>
      cases decision with
      | fail error =>
        subst here
        have flight := in_flight_reachable reached p claim tried (by rw [was]; rfl)
        have exhausted := only.decisions p tried error (by rw [was]; rfl)
        rw [← decided_row guarded flight pair inside named] at exhausted
        rw [written]
        exact ⟨error, rfl, exhausted⟩
      | retry | complete =>
        rw [written] at failed
        cases failed
  · rw [fresh.pending] at failed
    cases failed

theorem only_exhausted_reachable (roundTrips : wire.RoundTrips)
    (reached : Reachable (worldStep d config codec) (closed wire) (World.initial config) w) :
    OnlyExhausted d w.engine := by
  refine reachable_invariant (P := fun w => OnlyExhausted d w.engine) ?_ ?_ reached
  · constructor
    · intro p step error held
      cases held
    · intro runId row member
      cases member
  · intro w a w' before only may taken
    obtain ⟨honestly, known⟩ := closed_reachable roundTrips before
    have joined := joined_reachable honestly
    cases a with
    | engine a =>
      obtain ⟨t, moved, rfl⟩ := Option.map_eq_some_iff.mp taken
      have effect := step_effect moved
      exact ⟨failures_decided roundTrips joined known only effect may,
        failures_stored (engine_reachable honestly) only effect⟩
    | deliver request =>
      obtain ⟨_, _, arrived⟩ := Option.bind_eq_some_iff.mp taken
      obtain ⟨tool, _, rfl⟩ := Option.map_eq_some_iff.mp arrived
      exact only
    | tool a =>
      simp only [worldStep] at taken
      split at taken
      · cases taken
      · obtain ⟨tool, _, rfl⟩ := Option.map_eq_some_iff.mp taken
        exact only

end Failing

/-- In the closed system a run fails only with a step that has failed, and a step fails only when its
    attempts have spent the retry budget of some worker, the last of them lost to a failure that
    goes away. -/
theorem runs_fail_exhausted {d : Deployment} {config : ToolConfig} {codec : ToolCodec} {wire : Wire}
    {w : World} (roundTrips : wire.RoundTrips)
    (reached : Reachable (worldStep d config codec) (closed wire) (World.initial config) w)
    {runId : String} {run : WorkflowRun} (got : getWorkflowRun w.engine.db runId = .ok run) :
    (run.status = .failed → ∃ step ∈ run.steps, step.status = .failed) ∧
      ∀ step ∈ run.steps, step.status = .failed →
        ∃ error, step.lastError = some error ∧ Exhausted d step.attempts error := by
  have only := only_exhausted_reachable roundTrips reached
  have consistent :=
    projected_consistent (engine_reachable (closed_reachable roundTrips reached).1) got
  obtain ⟨_, _, _, sound⟩ := consistent_sound consistent
  refine ⟨sound.failed, fun step member ended => ?_⟩
  obtain ⟨row, inside, rfl⟩ := step_stored consistent member
  exact only.rows runId row inside ended

section Example

def readResult (j : Json) : Option ToolResult := do
  some {
    operation := ← (j.get? "operation").bind Json.operation?
    referenceId := ← (j.get? "reference_id").bind Json.text?
    deduplicated := ← ((j.get? "deduplicated").getD (.bool false)).truth? }

/- The bodies as JSON; the one of a 500 is plain text. -/
def jsonWire : Wire where
  body reply :=
    match reply with
    | .result r => dumps false (.obj [("operation", .str r.operation.value),
        ("reference_id", .str r.referenceId), ("deduplicated", .bool r.deduplicated)])
    | .refused 500 detail _ => detail
    | .refused _ detail _ => dumps false (.obj [("detail", .str detail)])
  codec := ⟨fun text => (jsonLoads text).bind readResult⟩

theorem json_wire_round_trips : jsonWire.RoundTrips := by
  intro r
  have distinct : (Value.obj [("operation", .str r.operation.value),
      ("reference_id", .str r.referenceId), ("deduplicated", .bool r.deduplicated)]).Distinct := by
    simp [Value.Distinct, fieldsDistinct]
  simp [jsonWire, jsonLoads, loads_dumps false distinct, ofValue, ofFields, readResult, Json.get?,
    operation_value, Json.text?, Json.truth?]

/- A check that implies `closed`. -/
def overheard (wire : Wire) (w : World) : WorldAction → Bool
  | .engine (.readHistory ..) => false
  | .engine (.resolve p outcome _) => w.deliveries.zipIdx.any fun (request, i) =>
      (w.engine.pc p).waiting?.map Prod.snd = some request ∧
      (w.tool.calls[i]?.bind (·.phase.answered?)).any
        (fun reply => outcome = execute wire.codec (.response (wire.response reply)))
  | _ => true

theorem overheard_closed {wire : Wire} {w : World} {a : WorldAction} (may : overheard wire w a = true) :
    closed wire w a := by
  cases a with
  | deliver request => trivial
  | tool a => trivial
  | engine a =>
    cases a with
    | readHistory p runId => cases may
    | resolve p outcome now =>
      obtain ⟨⟨request, i⟩, inside, told⟩ := List.any_eq_true.mp may
      obtain ⟨delivered, answered⟩ := of_decide_eq_true told
      have place := List.mem_zipIdx_iff_getElem?.mp inside
      obtain ⟨bound, _⟩ := List.getElem?_eq_some_iff.mp place
      obtain ⟨reply, answered, same⟩ := (Option.any_eq_true _ _).mp answered
      rw [of_decide_eq_true same]
      exact .replied reply ⟨i, bound, place.trans delivered.symm, answered⟩
    | _ => trivial

def hastyWorker : Deployment :=
  ⟨fun _ => "worker", fun _ => ⟨1, .finite 1, .finite 60, .finite 30⟩, fun _ => "mock-tool"⟩

/- The one attempt that the budget allows is throttled. -/
def throttledCharge : List WorldAction :=
  [.engine (.beginCreate 0 "a1" onboarding none 1), .engine (.commitCreate 0),
    .engine (.beginClaim 0 2), .engine (.commitClaim 0 0), .engine (.beginRecord 0 3),
    .engine (.commitRecord 0 4), .engine (.send 0), .deliver 0, .tool (.find 0),
    .tool (.inject 0 true), .tool (.answer 0),
    .engine (.resolve 0 (.retryable "tool throttled the request" (some (.finite 1)) true) 5),
    .engine (.beginDecision 0 6), .engine (.commitDecision 0 7)]

theorem throttled_charge_exhausted :
    ∃ w run, runWhere (worldStep hastyWorker quietTool modelCodec)
        (fun w a => overheard jsonWire w a = true) (World.initial quietTool) throttledCharge = some w ∧
      getWorkflowRun w.engine.db "a1" = .ok run ∧ run.status = .failed ∧
      ∃ step ∈ run.steps, step.status = .failed ∧
        ∃ error, step.lastError = some error ∧ Exhausted hastyWorker step.attempts error := by
  have statuses : (runWhere (worldStep hastyWorker quietTool modelCodec)
      (fun w a => overheard jsonWire w a = true) (World.initial quietTool) throttledCharge).bind
        (fun w => (getWorkflowRun w.engine.db "a1").toOption.map (·.status)) = some .failed := by
    decide +kernel
  obtain ⟨w, ran, status⟩ := Option.bind_eq_some_iff.mp statuses
  obtain ⟨run, got, failed⟩ := Option.map_eq_some_iff.mp status
  have reached : Reachable (worldStep hastyWorker quietTool modelCodec) (closed jsonWire)
      (World.initial quietTool) w :=
    reachable_weaken (fun _ _ => overheard_closed) (reachable_runWhere throttledCharge .start ran)
  have read := Replay.to_option_some.mp got
  obtain ⟨some, exhausted⟩ := runs_fail_exhausted json_wire_round_trips reached read
  obtain ⟨step, member, ended⟩ := some failed
  exact ⟨w, run, ran, read, failed, step, member, ended, exhausted step member ended⟩

end Example

end Crashsafe
