import Crashsafe.Observability
import Crashsafe.AttemptOutcomes
import Crashsafe.Library.Counting

/- The timeline against the reducer. The two folds meet in the events: what the loop collects
   and what the reducer leaves in the steps are each counted in them. -/
namespace Crashsafe
open Replay Rows Counting

variable {str : Json → String} {rebuilt run : WorkflowRun} {origin : Datetime}
  {events : List WorkflowRunEvent} {event : WorkflowRunEvent} {state next : TimelineState}
  {runId : String}

structure Describes (origin : Datetime) (entry : TimelineEntry) (event : WorkflowRunEvent) : Prop where
  sequence : entry.sequence = event.sequence
  elapsedMs : entry.elapsedMs = milliseconds (event.occurredAt - origin)
  occurredAt : entry.occurredAt = event.occurredAt
  eventType : entry.eventType = event.eventType
  stepId : entry.stepId = event.stepId
  attempt : entry.attempt = event.attempt

section Dicts
variable {α : Type} {items : List (String × α)} {key k : String} {value : α}

theorem get_item_mem (found : getItem? items key = some value) : (key, value) ∈ items := by
  obtain ⟨⟨k, v⟩, present, rfl⟩ := Option.map_eq_some_iff.mp found
  have same : k = key := by simpa using List.find?_some present
  exact same ▸ List.mem_of_find?_eq_some present

theorem get_item_exists (member : key ∈ items.map Prod.fst) :
    ∃ value, getItem? items key = some value := by
  obtain ⟨item, inside, rfl⟩ := List.mem_map.mp member
  have found : (items.find? fun other => other.1 = item.1).isSome :=
    List.find?_isSome.mpr ⟨item, inside, by simp⟩
  obtain ⟨other, there⟩ := Option.isSome_iff_exists.mp found
  exact ⟨other.2, by rw [getItem?, there]; rfl⟩

theorem set_item_keys :
    k ∈ (setItem items key value).map Prod.fst ↔ k ∈ items.map Prod.fst ∨ k = key :=
  mem_keys_upsert fun _ => rfl

theorem set_default_keys :
    k ∈ (setDefault items key value).map Prod.fst ↔ k ∈ items.map Prod.fst ∨ k = key :=
  mem_keys_upsert fun _ => rfl

end Dicts

/- What one event adds to what the loop has collected. -/
structure Adds (origin : Datetime) (state : TimelineState) (event : WorkflowRunEvent)
    (next : TimelineState) : Prop where
  entry : ∃ entry, Describes origin entry event ∧ next.entries = state.entries ++ [entry] ∧
    next.plannedWaitMs = state.plannedWaitMs + entry.waitMs.getD 0
  attempts : next.attempts = state.attempts + if event.eventType = .stepAttemptStarted then 1 else 0
  retries : next.retries = state.retries + if event.eventType = .stepRetryScheduled then 1 else 0
  firstAttemptAt : next.firstAttemptAt =
    (if event.eventType = .stepAttemptStarted then started state event else state).firstAttemptAt
  stepDurationMs : next.stepDurationMs =
    (if event.eventType = .stepCompleted then completed state event else state).stepDurationMs

theorem completed_only_durations :
    completed state event = { state with stepDurationMs := (completed state event).stepDurationMs } := by
  unfold completed
  split
  · rfl
  · split <;> rfl

/-- No event whose payload can be read makes the loop raise. -/
theorem timeline_event_adds (str : Json → String) (rebuilt : WorkflowRun) (origin : Datetime)
    (state : TimelineState) (read : (parsePayload event.eventType event.payload).isSome) :
    ∃ next, timelineEvent str rebuilt origin state event = .ok next ∧
      Adds origin state event next := by
  obtain ⟨payload, parsed⟩ := Option.isSome_iff_exists.mp read
  obtain ⟨_, kind⟩ := parse_payload_some.mp parsed
  unfold timelineEvent
  rw [parsed]
  cases payload with
  | workflowRunCreated | stepAttemptStarted | stepRetryScheduled | stepFailed
  | workflowRunCompleted | workflowRunFailed =>
    simp only [EventPayload.eventType] at kind
    simp only [← kind]
    refine ⟨_, rfl, ⟨_, ⟨rfl, rfl, rfl, rfl, rfl, rfl⟩, rfl, ?_⟩, ?_, ?_, ?_, ?_⟩
    all_goals simp [TimelineState.add, plainEntry, started, ← kind]
  | stepCompleted =>
    simp only [EventPayload.eventType] at kind
    simp only [← kind]
    rw [completed_only_durations]
    refine ⟨_, rfl, ⟨_, ⟨rfl, rfl, rfl, rfl, rfl, rfl⟩, rfl, ?_⟩, ?_, ?_, ?_, ?_⟩
    all_goals simp [TimelineState.add, plainEntry, ← kind]

/- What the loop has collected, told by the events it has seen. -/
structure Told (origin : Datetime) (events : List WorkflowRunEvent) (state : TimelineState) : Prop where
  entries : List.Forall₂ (Describes origin) state.entries events
  attempts : state.attempts = events.countP (·.eventType = .stepAttemptStarted)
  retries : state.retries = events.countP (·.eventType = .stepRetryScheduled)
  plannedWaitMs : state.plannedWaitMs = (state.entries.filterMap (·.waitMs)).sum
  firstKeys : ∀ a ∈ events, ∀ stepId, isAttemptOf stepId a = true →
    stepId ∈ state.firstAttemptAt.map Prod.fst
  firsts : ∀ item ∈ state.firstAttemptAt, ∃ a ∈ events, item.2 = a.occurredAt
  durationKeys : ∀ stepId, stepId ∈ state.stepDurationMs.map Prod.fst ↔
    ∃ e ∈ events, isOf .stepCompleted stepId e = true
  distinct : (state.stepDurationMs.map Prod.fst).Nodup
  durations : ∀ item ∈ state.stepDurationMs, ∃ a e, [a, e].Sublist events ∧
    item.2 = milliseconds (e.occurredAt - a.occurredAt)

theorem told_initial : Told origin [] .initial where
  entries := .nil
  attempts := rfl
  retries := rfl
  plannedWaitMs := rfl
  firstKeys := by simp
  firsts := by simp [TimelineState.initial]
  durationKeys stepId := by simp [TimelineState.initial]
  distinct := .nil
  durations := by simp [TimelineState.initial]

/-- The payload of the event can be read, and a completion has an attempt before it. -/
structure Tellable (before : List WorkflowRunEvent) (event : WorkflowRunEvent) : Prop where
  read : (parsePayload event.eventType event.payload).isSome
  attempted : event.eventType = .stepCompleted →
    ∃ stepId, event.stepId = some stepId ∧ ∃ a ∈ before, isAttemptOf stepId a = true

theorem first_attempts_told (told : Told origin events state) (adds : Adds origin state event next) :
    (∀ a ∈ events ++ [event], ∀ stepId, isAttemptOf stepId a = true →
        stepId ∈ next.firstAttemptAt.map Prod.fst) ∧
      ∀ item ∈ next.firstAttemptAt, ∃ a ∈ events ++ [event], item.2 = a.occurredAt := by
  have firsts := adds.firstAttemptAt
  have earlier : ∀ item ∈ state.firstAttemptAt, ∃ a ∈ events ++ [event], item.2 = a.occurredAt := by
    intro item member
    obtain ⟨a, inside, time⟩ := told.firsts item member
    exact ⟨a, List.mem_append_left _ inside, time⟩
  have same (kept : next.firstAttemptAt = state.firstAttemptAt)
      (other : ∀ stepId, isAttemptOf stepId event = false) :
      (∀ a ∈ events ++ [event], ∀ stepId, isAttemptOf stepId a = true →
        stepId ∈ next.firstAttemptAt.map Prod.fst) ∧
      ∀ item ∈ next.firstAttemptAt, ∃ a ∈ events ++ [event], item.2 = a.occurredAt := by
    rw [kept]
    refine ⟨fun a member stepId attempt => ?_, earlier⟩
    rcases List.mem_append.mp member with old | new
    · exact told.firstKeys a old stepId attempt
    · simp [List.mem_singleton.mp new, other] at attempt
  by_cases kind : event.eventType = .stepAttemptStarted
  · cases named : event.stepId with
    | none =>
      simp only [if_pos kind, started, named] at firsts
      exact same firsts (by simp [isAttemptOf, named])
    | some step =>
      simp only [if_pos kind, started, named] at firsts
      rw [firsts]
      refine ⟨fun a member stepId attempt => set_default_keys.mpr ?_, fun item member => ?_⟩
      · rcases List.mem_append.mp member with old | new
        · exact .inl (told.firstKeys a old stepId attempt)
        · simp only [List.mem_singleton.mp new, isAttemptOf, named] at attempt
          exact .inr (by simpa using (of_decide_eq_true attempt).2.symm)
      · rcases mem_upsert.mp member with ⟨old, _⟩ | ⟨first, old, _, rfl⟩ | ⟨rfl, _⟩
        · exact earlier item old
        · exact earlier first old
        · exact ⟨event, by simp, rfl⟩
  · rw [if_neg kind] at firsts
    exact same firsts (by simp [isAttemptOf, kind])

theorem durations_told (told : Told origin events state) (adds : Adds origin state event next)
    (tellable : Tellable events event) :
    (∀ stepId, stepId ∈ next.stepDurationMs.map Prod.fst ↔
        ∃ e ∈ events ++ [event], isOf .stepCompleted stepId e = true) ∧
      (next.stepDurationMs.map Prod.fst).Nodup ∧
      ∀ item ∈ next.stepDurationMs, ∃ a e, [a, e].Sublist (events ++ [event]) ∧
        item.2 = milliseconds (e.occurredAt - a.occurredAt) := by
  have durations := adds.stepDurationMs
  by_cases kind : event.eventType = .stepCompleted
  · obtain ⟨done, named, attempt, inside, isAttempt⟩ := tellable.attempted kind
    obtain ⟨first, found⟩ := get_item_exists (told.firstKeys attempt inside done isAttempt)
    simp only [if_pos kind, completed, named, found] at durations
    rw [durations]
    refine ⟨fun stepId => set_item_keys.trans ?_, upsert_keys_distinct (fun _ => rfl) told.distinct, ?_⟩
    · rw [told.durationKeys stepId]
      simp only [List.mem_append, List.mem_singleton, or_and_right, exists_or, exists_eq_left]
      refine or_congr Iff.rfl ?_
      simp [isOf, kind, named, eq_comm]
    · intro item member
      have earlier : ∀ item ∈ state.stepDurationMs, ∃ a e, [a, e].Sublist (events ++ [event]) ∧
          item.2 = milliseconds (e.occurredAt - a.occurredAt) := by
        intro item member
        obtain ⟨a, e, sub, time⟩ := told.durations item member
        exact ⟨a, e, sub.trans (List.sublist_append_left _ _), time⟩
      obtain ⟨a, there, time⟩ := told.firsts (done, first) (get_item_mem found)
      have latest : ∃ a e, [a, e].Sublist (events ++ [event]) ∧
          milliseconds (event.occurredAt - first) = milliseconds (e.occurredAt - a.occurredAt) := by
        refine ⟨a, event, ?_, congrArg (fun t => milliseconds (event.occurredAt - t)) time⟩
        exact (List.singleton_sublist.mpr there).append (List.Sublist.refl [event])
      rcases mem_upsert.mp member with ⟨old, _⟩ | ⟨old, _, _, rfl⟩ | ⟨rfl, _⟩
      · exact earlier item old
      · exact latest
      · exact latest
  · simp only [if_neg kind] at durations
    rw [durations]
    refine ⟨fun stepId => (told.durationKeys stepId).trans ?_, told.distinct, fun item member => ?_⟩
    · simp [isOf, kind]
    · obtain ⟨a, e, sub, time⟩ := told.durations item member
      exact ⟨a, e, sub.trans (List.sublist_append_left _ _), time⟩

theorem told_snoc (told : Told origin events state) (adds : Adds origin state event next)
    (tellable : Tellable events event) : Told origin (events ++ [event]) next := by
  obtain ⟨entry, describes, listed, waited⟩ := adds.entry
  obtain ⟨firstKeys, firsts⟩ := first_attempts_told told adds
  obtain ⟨durationKeys, distinct, durations⟩ := durations_told told adds tellable
  refine ⟨?_, ?_, ?_, ?_, firstKeys, firsts, durationKeys, distinct, durations⟩
  · rw [listed]
    exact List.rel_append told.entries (.cons describes .nil)
  · rw [adds.attempts, told.attempts, List.countP_append]
    by_cases kind : event.eventType = .stepAttemptStarted <;> simp [kind]
  · rw [adds.retries, told.retries, List.countP_append]
    by_cases kind : event.eventType = .stepRetryScheduled <;> simp [kind]
  · rw [waited, told.plannedWaitMs, listed, List.filterMap_append, List.sum_append]
    cases wait : entry.waitMs <;> simp [wait]

/-- Read one after another, tellable events are all told. -/
theorem timeline_told (str : Json → String) (rebuilt : WorkflowRun) (origin : Datetime)
    (tellable : ∀ before e after, events = before ++ e :: after → Tellable before e) :
    ∃ state, replay (timelineEvent str rebuilt origin) .initial events = .ok state ∧
      Told origin events state := by
  induction events using List.reverseRecOn with
  | nil => exact ⟨_, rfl, told_initial⟩
  | append_singleton seen e ih =>
    have front : ∀ before x after, seen = before ++ x :: after → Tellable before x :=
      fun before x after cut => tellable before x (after ++ [e]) (by simp [cut])
    obtain ⟨state, collected, told⟩ := ih front
    have last := tellable seen e [] rfl
    obtain ⟨next, taken, adds⟩ := timeline_event_adds str rebuilt origin state last.read
    exact ⟨next, replay_snoc_ok.mpr ⟨state, collected, taken⟩, told_snoc told adds last⟩

section Accepted
variable {last : Int} {step : StepRecord}

theorem attempted_before (numbered : Numbered events step) (some : 1 ≤ step.attempts) :
    ∃ a ∈ events, isAttemptOf step.id a = true := by
  obtain ⟨n, count, numbers⟩ := numbered
  have listed : attemptNumbers step.id events ≠ [] := by
    intro none
    have empty := congrArg List.length (numbers.symm.trans none)
    rw [List.length_map, numbering_length, List.length_nil] at empty
    omega
  obtain ⟨number, member⟩ := List.exists_mem_of_ne_nil _ listed
  obtain ⟨a, inside, _⟩ := List.mem_map.mp member
  exact ⟨a, (List.mem_filter.mp inside).1, (List.mem_filter.mp inside).2⟩

theorem advance_read {before after : WorkflowRun} (advance : RunAdvance before event after) :
    (parsePayload event.eventType event.payload).isSome := by
  apply Option.isSome_iff_exists.mpr
  cases advance with
  | completed kind payload => exact ⟨_, parse_payload_some.mpr ⟨payload, kind.symm⟩⟩
  | failed failed step kind payload => exact ⟨_, parse_payload_some.mpr ⟨payload, kind.symm⟩⟩
  | step index step next stepId named found advance =>
    cases advance with
    | attemptStarted _ kind payload | retryScheduled _ kind payload
    | completed _ kind payload | failed _ kind payload =>
      exact ⟨_, parse_payload_some.mpr ⟨payload, kind.symm⟩⟩

/-- A completion closes an attempt, which has its event. -/
theorem advance_attempted {after : WorkflowRun} (advance : RunAdvance run event after)
    (kind : event.eventType = .stepCompleted) (known : OutcomesKnown events run)
    (numbered : ∀ step ∈ run.steps, Numbered events step) :
    ∃ stepId, event.stepId = some stepId ∧ ∃ a ∈ events, isAttemptOf stepId a = true := by
  cases advance with
  | completed other => simp [kind] at other
  | failed _ _ other => simp [kind] at other
  | step index step next stepId named found advance =>
    obtain ⟨present, sameId⟩ := find_step_with_index_ok found
    have inside := List.mem_of_getElem? present
    refine ⟨stepId, named, ?_⟩
    rw [← sameId]
    cases advance with
    | attemptStarted _ other | retryScheduled _ other | failed _ other => simp [kind] at other
    | completed _ _ _ active =>
      exact attempted_before (numbered step inside) ((known.decided step inside).started active)

theorem fold_tellable (folded : foldHistory runId events = .ok (some run, last)) :
    ∀ before e after, events = before ++ e :: after → Tellable before e := by
  rintro before e after rfl
  obtain ⟨state, earlier, later⟩ := replay_append_ok.mp folded
  obtain ⟨next, taken, _⟩ := replay_cons_ok.mp later
  obtain ⟨_, _, sound⟩ := fold_state_sound earlier
  obtain ⟨_, _, _, run', _, move⟩ := reduce_event_ok taken
  rcases move with ⟨created, _, creation, _⟩ | ⟨before', current, _, advance⟩
  · have read := parse_payload_some.mpr ⟨creation.payload, creation.kind.symm⟩
    exact ⟨by rw [read]; rfl, fun kind => by simp [creation.kind] at kind⟩
  · obtain ⟨state, n⟩ := state
    simp only at current
    subst current
    obtain ⟨_, created, sound⟩ := sound
    exact ⟨advance_read advance,
      fun kind => advance_attempted advance kind (fold_outcomes earlier) sound.numbered⟩

end Accepted

/-- Some event records how the attempt the event is about came out. -/
def hasOutcome (events : List WorkflowRunEvent) (event : WorkflowRunEvent) : Bool :=
  events.any fun outcome => outcome.eventType ∈ outcomeTypes ∧ outcome.stepId = event.stepId ∧
    outcome.attempt = event.attempt

def isUnrecorded (events : List WorkflowRunEvent) (event : WorkflowRunEvent) : Bool :=
  event.eventType = .stepAttemptStarted ∧ ¬ hasOutcome events event

section Accounts
variable {step : StepRecord} {stepId : String}

/-- The step events that satisfy `p` are those of each step together. -/
theorem count_by_step (known : OutcomesKnown events run) (distinct : (run.steps.map (·.id)).Nodup)
    {p : WorkflowRunEvent → Bool}
    (ofSteps : ∀ e ∈ events, p e = true → e.eventType ∈ .stepAttemptStarted :: outcomeTypes) :
    events.countP p = (run.steps.map fun step => events.countP fun e =>
      p e && decide (e.stepId = some step.id)).sum := by
  have distinct' : (run.steps.map fun step => some step.id).Nodup := by
    have mapped := distinct.map (Option.some_injective String)
    rwa [List.map_map] at mapped
  have keyed : ∀ e ∈ events, p e = true → e.stepId ∈ run.steps.map fun step => some step.id := by
    intro e member selected
    obtain ⟨step, inside, named⟩ := known.named e member (ofSteps e member selected)
    exact List.mem_map.mpr ⟨step, inside, named.symm⟩
  rw [countP_keys distinct' keyed, List.map_map]
  rfl

theorem count_kind (known : OutcomesKnown events run) (distinct : (run.steps.map (·.id)).Nodup)
    (kind : EventType) (ofSteps : kind ∈ .stepAttemptStarted :: outcomeTypes) :
    events.countP (·.eventType = kind) =
      (run.steps.map fun step => events.countP (isOf kind step.id)).sum := by
  rw [count_by_step known distinct fun e _ selected => by
    rw [of_decide_eq_true selected]
    exact ofSteps]
  refine congrArg List.sum (List.map_congr_left fun step _ => List.countP_congr fun e _ => ?_)
  simp [isOf]

theorem mem_outcome_numbers {number : Option Int} : number ∈ outcomeNumbers stepId events ↔
    ∃ outcome ∈ events, (outcome.eventType ∈ outcomeTypes ∧ outcome.stepId = some stepId) ∧
      outcome.attempt = number := by
  simp [outcomeNumbers, isOutcomeOf, and_assoc]

/-- An attempt of the step is unrecorded when its number is not an outcome's. -/
theorem unrecorded_of_step :
    (events.countP fun e => isUnrecorded events e && decide (e.stepId = some stepId)) =
      (attemptNumbers stepId events).countP fun n => decide (n ∉ outcomeNumbers stepId events) := by
  simp only [attemptNumbers, List.countP_map, List.countP_filter]
  apply List.countP_congr
  intro e _
  simp only [isUnrecorded, isAttemptOf, hasOutcome, Bool.and_eq_true, decide_eq_true_eq, Function.comp,
    List.any_eq_true, mem_outcome_numbers]
  constructor
  · rintro ⟨⟨kind, none⟩, named⟩
    refine ⟨?_, kind, named⟩
    rintro ⟨outcome, member, ⟨type, same⟩, number⟩
    exact none ⟨outcome, member, type, same.trans named.symm, number⟩
  · rintro ⟨none, kind, named⟩
    refine ⟨⟨kind, ?_⟩, named⟩
    rintro ⟨outcome, member, type, same, number⟩
    exact none ⟨outcome, member, ⟨type, same.trans named⟩, number⟩

theorem outcomes_by_kind (stepId : String) (events : List WorkflowRunEvent) :
    (outcomeNumbers stepId events).length =
    events.countP (isOf .stepRetryScheduled stepId) + events.countP (isOf .stepCompleted stepId) +
      events.countP (isOf .stepFailed stepId) := by
  simp only [outcomeNumbers, List.length_map, ← List.countP_eq_length_filter]
  induction events with
  | nil => rfl
  | cons e rest ih =>
    simp only [List.countP_cons, ih, isOutcomeOf, isOf, outcomeTypes, List.mem_cons, List.not_mem_nil,
      or_false, decide_eq_true_eq]
    by_cases named : e.stepId = some stepId
    · simp only [named, and_true]
      generalize e.eventType = kind
      cases kind <;> simp <;> omega
    · simp [named]

/-- Every attempt of the step is unrecorded or has one of the outcomes for its own. -/
theorem step_accounts (numbered : Numbered events step) (decided : Decided events step) :
    events.countP (isOf .stepRetryScheduled step.id) + (if step.status = .completed then 1 else 0) +
      (if step.status = .failed then 1 else 0) +
      (events.countP fun e => isUnrecorded events e && decide (e.stepId = some step.id)) =
    events.countP (isOf .stepAttemptStarted step.id) := by
  have outcomes := outcomes_by_kind step.id events
  rw [decided.completed, decided.failed] at outcomes
  obtain ⟨n, count, numbers⟩ := numbered
  obtain ⟨ys, listed, rising, inside⟩ := decided.outcomes
  have attempts : events.countP (isOf .stepAttemptStarted step.id) = n := by
    have length := congrArg List.length numbers
    rwa [attemptNumbers, List.length_map, ← List.countP_eq_length_filter, List.length_map,
      numbering_length] at length
  have within : ∀ y ∈ ys, y ∈ numbering n := by
    intro y member
    have bounds := inside y member
    have limit : step.undecided ≤ step.attempts + 1 := by
      unfold StepRecord.undecided
      split <;> omega
    exact mem_numbering.mpr (by omega)
  have leftOut := count_left_out ((numbering_sorted n).imp fun lt => ne_of_lt lt)
    (rising.imp fun lt => ne_of_lt lt) within
  rw [unrecorded_of_step, numbers, listed, List.countP_map]
  rw [listed, List.length_map] at outcomes
  simp only [Function.comp_def, List.mem_map, Option.some.injEq, exists_eq_right]
  rw [numbering_length] at leftOut
  omega

end Accounts

section Building
variable {first : WorkflowRunEvent} {rest : List WorkflowRunEvent}

/-- The timeline whose entries and sums the loop has collected. -/
def timelineOf (run : WorkflowRun) (first : WorkflowRunEvent) (rest : List WorkflowRunEvent)
    (state : TimelineState) : WorkflowRunTimeline where
  runId := first.runId
  entries := state.entries
  summary :=
    { status := run.status
      durationMs := milliseconds
        (((first :: rest).getLast (List.cons_ne_nil first rest)).occurredAt - first.occurredAt)
      attempts := state.attempts
      retries := state.retries
      plannedWaitMs := state.plannedWaitMs
      stepDurationMs := state.stepDurationMs }

/-- What the reducer accepts, build_timeline tells. -/
theorem build_timeline_told (str : Json → String)
    (accepted : reduceWorkflowRunHistory (first :: rest) = .ok run) :
    ∃ state, Told first.occurredAt (first :: rest) state ∧
      buildTimeline str (first :: rest) = .ok (timelineOf run first rest state) := by
  obtain ⟨_, _, last, _, folded, _⟩ := reduce_history_ok.mp accepted
  obtain ⟨state, collected, told⟩ := timeline_told str run first.occurredAt (fold_tellable folded)
  refine ⟨state, told, ?_⟩
  simp only [buildTimeline, accepted, collected]
  rfl

end Building

/- The timeline tells of the history what the rebuilt run has of it. -/
structure TimelineAgrees (events : List WorkflowRunEvent) (run : WorkflowRun)
    (timeline : WorkflowRunTimeline) : Prop where
  entries : ∃ origin, events.head?.map (·.occurredAt) = some origin ∧
    List.Forall₂ (Describes origin) timeline.entries events
  status : timeline.summary.status = run.status
  attempts : timeline.summary.attempts = (run.steps.map (·.attempts)).sum
  retries : timeline.summary.retries = events.countP (·.eventType = .stepRetryScheduled)
  within : timeline.summary.retries + run.steps.countP (·.status = .completed) +
    run.steps.countP (·.status = .failed) ≤ timeline.summary.attempts
  unrecorded : timeline.summary.attempts - (timeline.summary.retries +
    run.steps.countP (·.status = .completed) + run.steps.countP (·.status = .failed)) =
      events.countP (isUnrecorded events)
  durationKeys : ∀ stepId, stepId ∈ timeline.summary.stepDurationMs.map Prod.fst ↔
    ∃ step ∈ run.steps, step.status = .completed ∧ step.id = stepId
  distinct : (timeline.summary.stepDurationMs.map Prod.fst).Nodup
  plannedWaitMs : timeline.summary.plannedWaitMs = (timeline.entries.filterMap (·.waitMs)).sum

/-- Over all steps: retries, completed and failed steps and unrecorded attempts make up the
    attempts. -/
theorem attempts_balance (known : OutcomesKnown events run) (distinct : (run.steps.map (·.id)).Nodup)
    (numbered : ∀ step ∈ run.steps, Numbered events step) :
    events.countP (·.eventType = .stepRetryScheduled) + run.steps.countP (·.status = .completed) +
      run.steps.countP (·.status = .failed) + events.countP (isUnrecorded events) =
    events.countP (·.eventType = .stepAttemptStarted) := by
  have unrecorded := count_by_step known distinct (p := isUnrecorded events) fun e _ selected => by
    simp only [isUnrecorded, decide_eq_true_eq] at selected
    simp [selected.1]
  have completed := sum_indicator (fun step : StepRecord => decide (step.status = .completed)) run.steps
  have failed := sum_indicator (fun step : StepRecord => decide (step.status = .failed)) run.steps
  rw [unrecorded, count_kind known distinct .stepRetryScheduled (by simp [outcomeTypes]),
    count_kind known distinct .stepAttemptStarted (by simp), ← completed, ← failed,
    ← List.sum_map_add, ← List.sum_map_add, ← List.sum_map_add]
  refine congrArg List.sum (List.map_congr_left fun step member => ?_)
  simpa using step_accounts (numbered step member) (known.decided step member)

theorem attempts_summed (known : OutcomesKnown events run) (distinct : (run.steps.map (·.id)).Nodup)
    (numbered : ∀ step ∈ run.steps, Numbered events step) :
    (events.countP (·.eventType = .stepAttemptStarted) : Int) = (run.steps.map (·.attempts)).sum := by
  rw [count_kind known distinct .stepAttemptStarted (by simp), Nat.cast_list_sum, List.map_map]
  refine congrArg List.sum (List.map_congr_left fun step member => ?_)
  have count := (numbered_count (numbered step member)).1
  rw [attemptNumbers, List.length_map, ← List.countP_eq_length_filter] at count
  exact count.symm

/-- A step is COMPLETED when the history has its completion. -/
theorem completed_by_event (known : OutcomesKnown events run) {stepId : String} :
    (∃ e ∈ events, isOf .stepCompleted stepId e = true) ↔
      ∃ step ∈ run.steps, step.status = .completed ∧ step.id = stepId := by
  constructor
  · rintro ⟨e, member, completion⟩
    have about := of_decide_eq_true completion
    obtain ⟨step, inside, named⟩ := known.named e member (by simp [about.1, outcomeTypes])
    have same : step.id = stepId := Option.some_inj.mp (named.symm.trans about.2)
    refine ⟨step, inside, ?_, same⟩
    by_contra unfinished
    have none := (known.decided step inside).completed
    rw [if_neg unfinished, List.countP_eq_zero, same] at none
    exact none e member completion
  · rintro ⟨step, inside, completed, rfl⟩
    have one := (known.decided step inside).completed
    rw [if_pos completed] at one
    exact List.countP_pos_iff.mp (by omega)

theorem timeline_agrees (str : Json → String) {events : List WorkflowRunEvent} {run : WorkflowRun}
    (accepted : reduceWorkflowRunHistory events = .ok run) :
    ∃ timeline, buildTimeline str events = .ok timeline ∧ TimelineAgrees events run timeline := by
  obtain ⟨first, rest, last, rfl, folded, _⟩ := reduce_history_ok.mp accepted
  obtain ⟨_, _, _, _, sound⟩ := fold_state_sound folded
  have known := fold_outcomes folded
  obtain ⟨state, told, built⟩ := build_timeline_told str accepted
  have balance := attempts_balance known sound.distinct sound.numbered
  refine ⟨_, built, ⟨_, rfl, told.entries⟩, rfl, ?_, told.retries, ?_, ?_, ?_, told.distinct,
    told.plannedWaitMs⟩
  · exact told.attempts.trans (attempts_summed known sound.distinct sound.numbered)
  · simp only [timelineOf, told.attempts, told.retries]
    omega
  · simp only [timelineOf, told.attempts, told.retries]
    omega
  · exact fun stepId => (told.durationKeys stepId).trans (completed_by_event known)

theorem charged_timeline_agrees : ∃ run timeline, reduceWorkflowRunHistory chargedHistory = .ok run ∧
    buildTimeline (fun _ => "charge_1") chargedHistory = .ok timeline ∧
      TimelineAgrees chargedHistory run timeline := by
  obtain ⟨run, accepted⟩ : ∃ run, reduceWorkflowRunHistory chargedHistory = .ok run := ⟨_, rfl⟩
  obtain ⟨timeline, built, agrees⟩ := timeline_agrees (fun _ => "charge_1") accepted
  exact ⟨run, timeline, accepted, built, agrees⟩

end Crashsafe
