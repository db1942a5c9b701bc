import Crashsafe.Methods

/- Whether a run that has ended can change again. The claim query asks for a running run; the
   four transitions do not, so finality rests on what fail_step leaves open behind it. -/
namespace Crashsafe
open Rows Replay Execution

/-- No call can append to a run that has ended or change its steps, and its last event is its
    only terminal one. -/
def TerminalFinal (db : Database) : Prop :=
  ∀ runId, (∃ row ∈ db.runsOf runId, row.status ≠ .running) →
    (∀ c db', call db c = some db' →
      db'.eventsOf runId = db.eventsOf runId ∧ db'.stepsOf runId = db.stepsOf runId) ∧
    ∃ before last, db.eventsOf runId = before ++ [last] ∧ IsTerminal last ∧
      ∀ e ∈ before, ¬ IsTerminal e

/-- When fail_step takes effect no other step of the run is in flight or could start. -/
def FailsAlone (db : Database) (c : Call) : Prop :=
  ∀ a error, c = .failStep a error → ∀ row ∈ db.stepsOf a.runId, row.id ≠ a.stepId →
    row.status ≠ .intentRecorded ∧
      (row.status ∈ runnableStatuses → Blocked db a.runId row.id)

/-- Every step of the run is decided or waits for one that is not completed. -/
def Dead (v : RunView) : Prop :=
  ∀ row ∈ v.steps, row.status ≠ .intentRecorded ∧ (row.status ∈ runnableStatuses → v.Blocked row.id)

def EndsOnce (v : RunView) : Prop :=
  ∃ before last, v.events = before ++ [last] ∧ IsTerminal last ∧ ∀ e ∈ before, ¬ IsTerminal e

def Sealed (v : RunView) : Prop :=
  (∃ row ∈ v.runs, row.status ≠ .running) → Dead v ∧ EndsOnce v

/-- No terminal event stands in the history of a run whose row says it is running. -/
def Open (v : RunView) : Prop :=
  ∀ row ∈ v.runs, row.status = .running → ∀ e ∈ v.events, ¬ IsTerminal e

/- What any sequence of calls keeps, finality aside. -/
structure Sane (db : Database) : Prop where
  tidy : ∀ runId, Tidy runId (db.view runId)
  open_runs : ∀ runId, Open (db.view runId)

section Preserved
variable {db db' : Database} {runId : String} {v w : RunView} {row : StepRow} {now : Datetime}
  {write : Write}

theorem move_open (h : Open v) (move : RunMove runId v row now write w) : Open w := by
  have plain : ∀ (events : List WorkflowRunEvent) (e : WorkflowRunEvent), ¬ IsTerminal e →
      (∀ e ∈ events, ¬ IsTerminal e) → ∀ e' ∈ events ++ [e], ¬ IsTerminal e' := by
    intro events e notTerminal before e' member
    rcases List.mem_append.mp member with old | new
    · exact before e' old
    · rw [List.mem_singleton.mp new]
      exact notTerminal
  intro runRow member running
  cases move with
  | attempted | retried =>
    refine plain _ _ ?_ (h runRow member running)
    simp [IsTerminal, eventOf, EventPayload.eventType, attemptPayload]
  | completed output active w written more =>
    subst written
    refine plain _ _ ?_ (h runRow member running)
    simp [IsTerminal, eventOf, EventPayload.eventType]
  | failed error active =>
    obtain ⟨old, _, same⟩ := List.mem_map.mp member
    rw [← same] at running
    cases running
  | finished output active w written all =>
    obtain ⟨old, _, same⟩ := List.mem_map.mp member
    rw [← same] at running
    cases running

theorem sane_start : Sane emptyDatabase :=
  ⟨fun _ => tidy_empty, fun _ row member => by simp [emptyDatabase, Database.view, Database.runsOf] at member⟩

theorem sane_call {c : Call} (h : Sane db) (taken : call db c = some db') : Sane db' := by
  cases call_effect taken with
  | nothing same => exact same ▸ h
  | created definition toolKey defaultToolKey runId now done =>
    have absent := (h.tidy runId).absent (create_absent done)
    obtain ⟨written, others⟩ := create_ok absent done
    constructor
    · intro other
      by_cases here : other = runId
      · subst here
        exact tidy_created absent done
      · rw [others other here]
        exact h.tidy other
    · intro other
      by_cases here : other = runId
      · subst here
        rw [written]
        intro row _ _ e member
        rw [List.mem_singleton.mp member]
        simp [IsTerminal, creationEvent, eventOf, EventPayload.eventType]
      · rw [others other here]
        exact h.open_runs other
  | claimed ownerId now claim granted =>
    refine ⟨fun runId => tidy_granted granted (h.tidy runId), fun runId => ?_⟩
    rw [granted_view granted runId]
    exact h.open_runs runId
  | moved a write row asked committed =>
    constructor
    · intro other
      by_cases here : other = a.runId
      · rw [here]
        exact tidy_move (h.tidy a.runId) committed.member committed.move
      · rw [committed.others other here]
        exact h.tidy other
    · intro other
      by_cases here : other = a.runId
      · rw [here]
        exact move_open (h.open_runs a.runId) committed.move
      · rw [committed.others other here]
        exact h.open_runs other

end Preserved

section Frozen
variable {db db' : Database} {runId : String}

/-- A dead run admits no transition. -/
theorem dead_immobile {v w : RunView} {row : StepRow} {now : Datetime} {write : Write} (dead : Dead v)
    (member : row ∈ v.steps) (move : RunMove runId v row now write w) : False := by
  obtain ⟨idle, waiting⟩ := dead row member
  cases move with
  | attempted ownerId fenceToken runnable ready => exact ready (waiting runnable)
  | retried _ _ active | failed _ active | completed _ active | finished _ active => exact idle active

theorem dead_unchanged (sane : Sane db) (dead : Dead (db.view runId))
    (present : (db.view runId).runs ≠ []) {c : Call} (taken : call db c = some db') :
    (db'.view runId).events = (db.view runId).events ∧
      (db'.view runId).steps = (db.view runId).steps := by
  cases call_effect taken with
  | nothing same => simp [same]
  | created definition toolKey defaultToolKey created now done =>
    have differs : runId ≠ created := fun same => present (same ▸ create_absent done)
    have absent := (sane.tidy created).absent (create_absent done)
    rw [(create_ok absent done).2 runId differs]
    exact ⟨rfl, rfl⟩
  | claimed ownerId now claim granted =>
    rw [granted_view granted runId]
    exact ⟨rfl, rfl⟩
  | moved a write row asked committed =>
    by_cases here : runId = a.runId
    · subst here
      exact (dead_immobile dead committed.member committed.move).elim
    · rw [committed.others runId here]
      exact ⟨rfl, rfl⟩

/- The two calls that move a run which is not dead, with the lease pair omitted. -/

theorem in_flight_moves (sane : Sane db) {row : StepRow} (member : row ∈ (db.view runId).steps)
    (active : row.status = .intentRecorded) :
    ∃ c db', call db c = some db' ∧ db'.eventsOf runId ≠ db.eventsOf runId := by
  have found := get_step_row_unique (sane.tidy runId) member
  cases result : failStep db runId row.id "" none none 0 0 with
  | error e => simp [failStep, found, requireActiveAttempt, requireLease, active] at result
  | ok after =>
    obtain ⟨_, committed⟩ := fail_step_ok result
    obtain ⟨first, rest, grown⟩ := move_extends_events committed.move
    refine ⟨.failStep ⟨runId, row.id, none, none, 0, 0⟩ "", after, by simp [call, result, Except.toOption],
      fun same => ?_⟩
    have lengths := congrArg List.length (same.symm.trans grown)
    simp [Database.view] at lengths

theorem ready_moves (sane : Sane db) {row : StepRow} (member : row ∈ (db.view runId).steps)
    (runnable : row.status ∈ runnableStatuses) (ready : ¬ (db.view runId).Blocked row.id) :
    ∃ c db', call db c = some db' ∧ db'.eventsOf runId ≠ db.eventsOf runId := by
  have found := get_step_row_unique (sane.tidy runId) member
  cases result : recordAttempt db runId row.id none none 0 0 with
  | error e =>
    have unblocked : ¬ Blocked db runId row.id := fun blocked => ready (blocked_view.mp blocked)
    have keeps : ∀ r, immutable (setAttempt (row.attempts + 1) 0 r) = immutable r := fun _ => rfl
    have reread := get_step_row_updated (appendEvent db runId (attemptPayload row none none) 0
      (some row.id) (some (row.attempts + 1)) eventSchemaVersion) keeps
      (by exact found : getStepRow _ runId row.id = .ok row)
    simp [recordAttempt, found, requireLease, runnable, unblocked, reread] at result
  | ok recorded =>
    obtain ⟨after, step⟩ := recorded
    obtain ⟨_, committed, _⟩ := record_attempt_ok result
    obtain ⟨first, rest, grown⟩ := move_extends_events committed.move
    refine ⟨.recordAttempt ⟨runId, row.id, none, none, 0, 0⟩, after,
      by simp [call, result, Except.toOption], fun same => ?_⟩
    have lengths := congrArg List.length (same.symm.trans grown)
    simp [Database.view] at lengths

theorem final_iff_sealed (sane : Sane db) :
    TerminalFinal db ↔ ∀ runId, Sealed (db.view runId) := by
  constructor
  · intro final runId ended
    obtain ⟨frozen, once⟩ := final runId ended
    refine ⟨fun row member => ⟨fun active => ?_, fun runnable => ?_⟩, once⟩
    · obtain ⟨c, after, taken, changed⟩ := in_flight_moves sane member active
      exact changed (frozen c after taken).1
    · by_contra ready
      obtain ⟨c, after, taken, changed⟩ := ready_moves sane member runnable ready
      exact changed (frozen c after taken).1
  · intro sealed' runId ended
    obtain ⟨dead, once⟩ := sealed' runId ended
    obtain ⟨row, member, _⟩ := ended
    exact ⟨fun c after taken =>
      dead_unchanged sane dead (List.ne_nil_of_mem member) taken, once⟩

end Frozen

section Exact
variable {runId : String} {v w : RunView} {row : StepRow} {now : Datetime} {write : Write}

/-- Other than the named step, the run has no step in flight and none that could start. -/
def OnlyOpen (v : RunView) (stepId : String) : Prop :=
  ∀ other ∈ v.steps, other.id ≠ stepId →
    other.status ≠ .intentRecorded ∧ (other.status ∈ runnableStatuses → v.Blocked other.id)

theorem blocked_after_failure (distinct : (v.steps.map (·.id)).Nodup) (member : row ∈ v.steps)
    (active : row.status = .intentRecorded) (error stepId : String) :
    (v.setStep row.id (setFailed error now)).Blocked stepId ↔ v.Blocked stepId := by
  constructor
  · rintro ⟨d, link, source, dep, present, target, unfinished⟩
    obtain ⟨old, inside, same⟩ := mem_updateWhere.mp present
    split at same
    · rename_i here
      have self : old = row := List.inj_on_of_nodup_map distinct inside member (by simpa using here)
      subst self
      refine ⟨d, link, source, old, inside, ?_, by simp [active]⟩
      rw [← target, ← same]
      rfl
    · subst same
      exact ⟨d, link, source, old, inside, target, unfinished⟩
  · rintro ⟨d, link, source, dep, inside, target, unfinished⟩
    refine ⟨d, link, source, _, mem_updateWhere.mpr ⟨dep, inside, rfl⟩, ?_, ?_⟩
    · split
      · exact target
      · exact target
    · split
      · simp [setFailed]
      · exact unfinished

theorem dead_after_failure (distinct : (v.steps.map (·.id)).Nodup) (member : row ∈ v.steps)
    (active : row.status = .intentRecorded) (error : String) :
    Dead (v.setStep row.id (setFailed error now)) ↔ OnlyOpen v row.id := by
  constructor
  · intro dead other inside differs
    have kept : other ∈ (v.setStep row.id (setFailed error now)).steps :=
      mem_updateWhere.mpr ⟨other, inside, by simp [differs]⟩
    obtain ⟨idle, waiting⟩ := dead other kept
    exact ⟨idle, fun runnable =>
      (blocked_after_failure distinct member active error _).mp (waiting runnable)⟩
  · intro only other inside
    obtain ⟨old, present, same⟩ := mem_updateWhere.mp inside
    split at same
    · rw [← same]
      simp [setFailed, runnableStatuses]
    · rename_i elsewhere
      subst same
      obtain ⟨idle, waiting⟩ := only old present (by simpa using elsewhere)
      exact ⟨idle, fun runnable =>
        (blocked_after_failure distinct member active error _).mpr (waiting runnable)⟩

theorem all_completed_dead (all : ∀ other ∈ v.steps, other.status = .completed) : Dead v := by
  intro other member
  rw [all other member]
  simp [runnableStatuses]

/-- A transition keeps a run sealed, except that a failure must leave nothing open. -/
theorem sealed_move (tidy : Tidy runId v) (opened : Open v) (sealed' : Sealed v)
    (member : row ∈ v.steps) (move : RunMove runId v row now write w) :
    Sealed w ↔ ∀ error, write = .fail error → OnlyOpen v row.id := by
  have running : ∀ r ∈ v.runs, r.status = .running := by
    intro r present
    by_contra ended
    exact dead_immobile (sealed' ⟨r, present, ended⟩).1 member move
  have present : v.runs ≠ [] := by
    intro none
    rw [tidy.absent none] at member
    simp [RunView.empty] at member
  obtain ⟨first, firstMember⟩ := List.exists_mem_of_ne_nil _ present
  have noTerminal := opened first firstMember (running first firstMember)
  have stillRunning : w.runs = v.runs → Sealed w := by
    rintro kept ⟨r, inside, ended⟩
    rw [kept] at inside
    exact absurd (running r inside) ended
  have endsOnce : ∀ e last : WorkflowRunEvent, ¬ IsTerminal e → IsTerminal last →
      ∃ before last', v.events ++ [e] ++ [last] = before ++ [last'] ∧ IsTerminal last' ∧
        ∀ e ∈ before, ¬ IsTerminal e := by
    intro e last plain terminal
    refine ⟨v.events ++ [e], last, rfl, terminal, fun e' inside => ?_⟩
    rcases List.mem_append.mp inside with old | new
    · exact noTerminal e' old
    · rw [List.mem_singleton.mp new]
      exact plain
  cases move with
  | attempted | retried => exact ⟨fun _ _ => Write.noConfusion, fun _ => stillRunning rfl⟩
  | completed output active w written more =>
    subst written
    exact ⟨fun _ _ => Write.noConfusion, fun _ => stillRunning rfl⟩
  | finished output active w written all =>
    refine ⟨fun _ _ => Write.noConfusion, fun _ _ => ⟨all_completed_dead all, ?_⟩⟩
    subst written
    apply endsOnce
    · simp [IsTerminal, eventOf, EventPayload.eventType]
    · simp [IsTerminal, eventOf, EventPayload.eventType]
  | failed error active =>
    have exact_dead : Dead (v.setStep row.id (setFailed error now)) ↔ OnlyOpen v row.id :=
      dead_after_failure tidy.distinct member active error
    constructor
    · intro after _ _
      exact exact_dead.mp (after ⟨_, List.mem_map_of_mem firstMember, by simp [setRunFailed]⟩).1
    · intro only _
      refine ⟨exact_dead.mpr (only error rfl), ?_⟩
      apply endsOnce
      · simp [IsTerminal, eventOf, EventPayload.eventType]
      · simp [IsTerminal, eventOf, EventPayload.eventType]

theorem fails_alone_view {db : Database} {c : Call} : FailsAlone db c ↔
    ∀ a error, c = .failStep a error → OnlyOpen (db.view a.runId) a.stepId := by
  simp only [FailsAlone, OnlyOpen, blocked_view]
  rfl

/-- One call keeps every run that has ended final exactly when it fails no step beside an
    open one. -/
theorem sealed_call {db db' : Database} {c : Call} (sane : Sane db)
    (before : ∀ runId, Sealed (db.view runId)) (taken : call db c = some db') :
    (∀ runId, Sealed (db'.view runId)) ↔ FailsAlone db c := by
  rw [fails_alone_view]
  cases call_effect taken with
  | nothing same quiet =>
    exact ⟨fun _ a error asked => absurd asked (quiet a error), fun _ => same ▸ before⟩
  | created definition toolKey defaultToolKey created now done quiet =>
    refine ⟨fun _ a error asked => absurd asked (quiet a error), fun _ runId => ?_⟩
    have absent := (sane.tidy created).absent (create_absent done)
    obtain ⟨written, others⟩ := create_ok absent done
    by_cases here : runId = created
    · rw [here, written]
      rintro ⟨row, member, ended⟩
      rw [List.mem_singleton.mp member] at ended
      exact absurd rfl ended
    · rw [others runId here]
      exact before runId
  | claimed ownerId now claim granted quiet =>
    refine ⟨fun _ a error asked => absurd asked (quiet a error), fun _ runId => ?_⟩
    rw [granted_view granted runId]
    exact before runId
  | moved a write row asked committed =>
    have step := sealed_move (sane.tidy a.runId) (sane.open_runs a.runId) (before a.runId)
      committed.member committed.move
    rw [committed.named] at step
    constructor
    · intro after b error same
      subst same
      simp only [Call.asks, Option.some.injEq, Prod.mk.injEq] at asked
      obtain ⟨rfl, rfl⟩ := asked
      exact step.mp (after _) error rfl
    · intro alone runId
      by_cases here : runId = a.runId
      · rw [here]
        apply step.mpr
        intro error fails
        subst fails
        exact alone a error (asks_fail asked)
      · rw [committed.others runId here]
        exact before runId

end Exact

theorem terminal_run_final_iff (calls : List Call) :
    Always call TerminalFinal emptyDatabase calls ↔ EachStep call FailsAlone emptyDatabase calls := by
  refine always_iff_eachStep (R := Sane) (fun _ _ _ sane taken => sane_call sane taken) ?_ calls
    emptyDatabase sane_start ?_
  · intro db c db' sane before taken
    rw [final_iff_sealed (sane_call sane taken)]
    exact sealed_call sane ((final_iff_sealed sane).mp before) taken
  · apply (final_iff_sealed sane_start).mpr
    intro runId
    rintro ⟨row, member, _⟩
    simp [emptyDatabase, Database.view, Database.runsOf] at member

section Counterexample

/- Two steps that depend on nothing. -/
def forkedDefinition : WorkflowDefinition where
  name := "forked"
  steps := [⟨"a", [], .charge "c-1" 100⟩, ⟨"b", [], .provision "c-1" "standard"⟩]
  nameLength := by decide
  stepsLength := by decide
  stepsAccepted := by decide
  graph := by decide

def forkedArgs (stepId : String) (now : Datetime) : TransitionArgs :=
  ⟨"r", stepId, none, none, now, now⟩

/- Step a fails while step b has not started. -/
def forkedCalls : List Call :=
  [.createWorkflowRun forkedDefinition none "mock-tool" "r" 1, .recordAttempt (forkedArgs "a" 2),
    .failStep (forkedArgs "a" 3) "declined"]

def forkedDatabase : Database := (run call emptyDatabase forkedCalls).getD emptyDatabase

theorem failed_run_not_final :
    ¬ ∀ db, Reachable call anyStep emptyDatabase db → TerminalFinal db := by
  intro final
  have ran : run call emptyDatabase forkedCalls = some forkedDatabase := by rfl
  have reached : Reachable call anyStep emptyDatabase forkedDatabase :=
    reachable_run forkedCalls (fun _ _ _ => trivial) .start ran
  have ended : ∃ row ∈ forkedDatabase.runsOf "r", row.status ≠ .running := by decide
  obtain ⟨frozen, _⟩ := final forkedDatabase reached "r" ended
  -- record_attempt starts the other branch of the failed run.
  have restarted : ∃ db', call forkedDatabase (.recordAttempt (forkedArgs "b" 4)) = some db' ∧
      (db'.eventsOf "r").length = (forkedDatabase.eventsOf "r").length + 1 := ⟨_, rfl, rfl⟩
  obtain ⟨after, taken, grown⟩ := restarted
  rw [(frozen _ after taken).1] at grown
  omega

end Counterexample

end Crashsafe
