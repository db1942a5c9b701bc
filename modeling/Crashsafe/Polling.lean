import Crashsafe.Api
import Crashsafe.Timeline

/- A client that polls a run. Between two polls the history has only grown, and so has what
   build_timeline makes of it. -/
namespace Crashsafe
open Rows Replay Execution

section Histories
variable {str : Json → String} {run run' : WorkflowRun} {origin : Datetime}
  {events more : List WorkflowRunEvent} {event : WorkflowRunEvent} {state next : TimelineState}
  {runId : String} {last : Int}

/-- Only the steps as they were created enter the entries. -/
theorem operations_of_snapshots (run : WorkflowRun) : operationsOf run =
    (run.steps.map snapshot).foldl (fun operations step => setItem operations step.id step.operation)
      [] := by
  rw [List.foldl_map]
  rfl

theorem timeline_event_steps (same : run.steps.map snapshot = run'.steps.map snapshot) :
    timelineEvent str run = timelineEvent str run' := by
  have operations : operationsOf run = operationsOf run' := by
    rw [operations_of_snapshots, same, ← operations_of_snapshots]
  have count : run.steps.length = run'.steps.length := by
    simpa using congrArg List.length same
  funext origin state event
  simp only [timelineEvent, plainEntry, operations, count]

/- What the loop has collected after more events. -/
structure Collects (earlier later : TimelineState) : Prop where
  entries : earlier.entries <+: later.entries
  attempts : earlier.attempts ≤ later.attempts
  retries : earlier.retries ≤ later.retries
  plannedWaitMs : earlier.plannedWaitMs ≤ later.plannedWaitMs
  stepDurationMs : earlier.stepDurationMs <+: later.stepDurationMs

theorem collects_refl : Collects state state :=
  ⟨List.prefix_refl _, le_rfl, le_rfl, le_rfl, List.prefix_refl _⟩

theorem collects_trans {later : TimelineState} (first : Collects state next)
    (second : Collects next later) : Collects state later where
  entries := first.entries.trans second.entries
  attempts := first.attempts.trans second.attempts
  retries := first.retries.trans second.retries
  plannedWaitMs := first.plannedWaitMs.trans second.plannedWaitMs
  stepDurationMs := first.stepDurationMs.trans second.stepDurationMs

/-- The step the event completes has not been completed before. -/
def FirstCompletion (before : List WorkflowRunEvent) (event : WorkflowRunEvent) : Prop :=
  ∀ stepId, isOf .stepCompleted stepId event = true → ∀ e ∈ before, isOf .stepCompleted stepId e = false

/-- No wait that was planned is negative. -/
theorem planned_wait_grows (taken : timelineEvent str run origin state event = .ok next) :
    state.plannedWaitMs ≤ next.plannedWaitMs := by
  unfold timelineEvent at taken
  split at taken
  · cases taken
  split at taken
  · cases taken
    exact le_rfl
  · split at taken
    · cases taken
      exact le_rfl
    · cases taken
  · split at taken
    · cases taken
      exact le_add_of_nonneg_right (le_max_left _ _)
    · cases taken
  · split at taken
    · cases taken
      rw [completed_only_durations]
      exact le_rfl
    · cases taken
  · split at taken
    · cases taken
      exact le_rfl
    · cases taken
  · cases taken
    exact le_rfl
  · cases taken
    exact le_rfl

theorem set_item_new {α : Type} {items : List (String × α)} {key : String} {value : α}
    (absent : key ∉ items.map Prod.fst) : setItem items key value = items ++ [(key, value)] := by
  unfold setItem upsert
  rw [if_neg]
  simpa using absent

/-- One event adds its entry, and a duration at most at the end. -/
theorem event_collects (told : Told origin events state) (adds : Adds origin state event next)
    (waits : state.plannedWaitMs ≤ next.plannedWaitMs) (first : FirstCompletion events event) :
    Collects state next := by
  obtain ⟨entry, _, listed, _⟩ := adds.entry
  refine ⟨⟨[entry], listed.symm⟩, ?_, ?_, waits, ?_⟩
  · rw [adds.attempts]
    split <;> omega
  · rw [adds.retries]
    split <;> omega
  · rw [adds.stepDurationMs]
    split
    · rename_i kind
      unfold completed
      split
      · exact List.prefix_refl _
      · rename_i stepId named
        split
        · exact List.prefix_refl _
        · have fresh : stepId ∉ state.stepDurationMs.map Prod.fst := by
            rw [told.durationKeys stepId]
            rintro ⟨e, member, completion⟩
            have completes : isOf .stepCompleted stepId event = true := by simp [isOf, kind, named]
            simp [first stepId completes e member] at completion
          rw [set_item_new fresh]
          exact List.prefix_append _ _
    · exact List.prefix_refl _

/-- What the loop has collected before `more` it still has after it. -/
theorem events_collect (tellable : ∀ before e after, events ++ more = before ++ e :: after →
      Tellable before e ∧ FirstCompletion before e)
    (collected : replay (timelineEvent str run origin) .initial events = .ok state) :
    ∃ later, replay (timelineEvent str run origin) .initial (events ++ more) = .ok later ∧
      Collects state later := by
  induction more using List.reverseRecOn with
  | nil =>
    rw [List.append_nil]
    exact ⟨state, collected, collects_refl⟩
  | append_singleton seen e ih =>
    have front : ∀ before x after, events ++ seen = before ++ x :: after →
        Tellable before x ∧ FirstCompletion before x :=
      fun before x after cut => tellable before x (after ++ [e]) (by
        rw [← List.append_assoc, cut, List.append_assoc, List.cons_append])
    obtain ⟨middle, reached, collects⟩ := ih front
    obtain ⟨told, same, isTold⟩ := timeline_told str run origin fun before x after cut =>
      (front before x after cut).1
    obtain rfl : middle = told := Except.ok.inj (reached.symm.trans same)
    obtain ⟨readable, first⟩ := tellable (events ++ seen) e [] (by simp)
    obtain ⟨next, taken, adds⟩ := timeline_event_adds str run origin middle readable.read
    refine ⟨next, ?_, collects_trans collects
      (event_collects isTold adds (planned_wait_grows taken) first)⟩
    rw [← List.append_assoc]
    exact replay_snoc_ok.mpr ⟨middle, reached, taken⟩

/-- No step is completed twice. -/
theorem fold_first_completions (folded : foldHistory runId events = .ok (some run, last)) :
    ∀ before e after, events = before ++ e :: after → FirstCompletion before e := by
  rintro before e after rfl stepId completes x member
  have known := fold_outcomes folded
  have about := of_decide_eq_true completes
  obtain ⟨step, inside, named⟩ := known.named e (by simp) (by simp [about.1, outcomeTypes])
  obtain rfl : stepId = step.id := Option.some_inj.mp (about.2.symm.trans named)
  have once := (known.decided step inside).completed
  rw [List.countP_append, List.countP_cons, if_pos completes] at once
  have none : before.countP (isOf .stepCompleted step.id) = 0 := by
    split at once <;> omega
  simpa using List.countP_eq_zero.mp none x member

theorem fold_snapshots {last' : Int} (folded : foldHistory runId events = .ok (some run, last))
    (grown : foldHistory runId (events ++ more) = .ok (some run', last')) :
    run.steps.map snapshot = run'.steps.map snapshot := by
  obtain ⟨_, _, _, created, sound⟩ := fold_state_sound folded
  obtain ⟨_, _, _, created', sound'⟩ := fold_state_sound grown
  obtain ⟨first, rest, shape, creation, _⟩ := sound.bracketed.creation
  obtain ⟨first', rest', shape', creation', _⟩ := sound'.bracketed.creation
  rw [shape, List.cons_append, List.cons.injEq] at shape'
  have same := creation.payload.symm.trans (shape'.1 ▸ creation'.payload)
  obtain rfl : created = created' := by simpa using same
  exact sound.snapshots.trans sound'.snapshots.symm

/-- The history of a run that has ended does not grow. -/
theorem fold_ended {last' : Int} (folded : foldHistory runId events = .ok (some run, last))
    (grown : foldHistory runId (events ++ more) = .ok (some run', last'))
    (ended : run.status ≠ .running) : more = [] := by
  cases more with
  | nil => rfl
  | cons e rest =>
    obtain ⟨state, earlier, later⟩ := replay_append_ok.mp grown
    obtain rfl : (some run, last) = state := Except.ok.inj (folded.symm.trans earlier)
    obtain ⟨next, taken, _⟩ := replay_cons_ok.mp later
    obtain ⟨_, _, _, _, _, move⟩ := reduce_event_ok taken
    rcases move with ⟨_, none, _⟩ | ⟨before, current, running, _⟩
    · cases none
    · cases current
      exact absurd running ended

/- A later timeline of the same run. -/
structure Extends (earlier later : WorkflowRunTimeline) : Prop where
  runId : later.runId = earlier.runId
  entries : earlier.entries <+: later.entries
  attempts : earlier.summary.attempts ≤ later.summary.attempts
  retries : earlier.summary.retries ≤ later.summary.retries
  plannedWaitMs : earlier.summary.plannedWaitMs ≤ later.summary.plannedWaitMs
  stepDurationMs : earlier.summary.stepDurationMs <+: later.summary.stepDurationMs
  ended : earlier.summary.status ≠ .running → later = earlier

theorem timeline_extends (str : Json → String) (accepted : reduceWorkflowRunHistory events = .ok run)
    (grown : reduceWorkflowRunHistory (events ++ more) = .ok run') :
    ∃ earlier later, buildTimeline str events = .ok earlier ∧
      buildTimeline str (events ++ more) = .ok later ∧ Extends earlier later := by
  obtain ⟨first, rest, last, rfl, folded, _⟩ := reduce_history_ok.mp accepted
  obtain ⟨_, _, last', shape, folded', _⟩ := reduce_history_ok.mp grown
  obtain ⟨rfl, rfl⟩ := List.cons.inj shape
  obtain ⟨state, collected, _⟩ := timeline_told str run first.occurredAt (fold_tellable folded)
  obtain ⟨later, collected', collects⟩ := events_collect (fun before e after cut =>
    ⟨fold_tellable folded' before e after cut, fold_first_completions folded' before e after cut⟩)
    collected
  have steps : timelineEvent str run = timelineEvent str run' :=
    timeline_event_steps (fold_snapshots folded folded')
  refine ⟨timelineOf run first rest state, timelineOf run' first (rest ++ more) later, ?_, ?_, rfl,
    collects.entries, collects.attempts, collects.retries, collects.plannedWaitMs,
    collects.stepDurationMs, fun ended => ?_⟩
  · simp only [buildTimeline, accepted, collected]
    rfl
  · rw [steps] at collected'
    simp only [List.cons_append] at grown collected'
    simp only [List.cons_append, buildTimeline, grown, collected']
    rfl
  · obtain rfl := fold_ended folded folded' ended
    rw [List.append_nil] at grown collected'
    obtain rfl : run = run' := Except.ok.inj (accepted.symm.trans grown)
    obtain rfl : state = later := Except.ok.inj (collected.symm.trans collected')
    rw [List.append_nil]

end Histories

section Polls
variable {d : Deployment} {s t : State} {runId : String}

/- What the two endpoints about the history of a run answer at two polls. -/
inductive Polled (str : Json → String) (earlier later : Database) (runId : String) : Prop where
  | notFound (absent : earlier.runsOf runId = [])
      (events : Api.listWorkflowRunEvents earlier runId =
        .httpException 404 "workflow run not found")
      (timeline : Api.workflowRunTimeline str earlier runId =
        .httpException 404 "workflow run not found")
  | found (events more : List WorkflowRunEvent) (told longer : WorkflowRunTimeline)
      (there : earlier.runsOf runId ≠ [])
      (listed : Api.listWorkflowRunEvents earlier runId = .success 200 events)
      (built : Api.workflowRunTimeline str earlier runId = .success 200 told)
      (listed' : Api.listWorkflowRunEvents later runId = .success 200 (events ++ more))
      (built' : Api.workflowRunTimeline str later runId = .success 200 longer)
      (extended : Extends told longer)

theorem history_grows {allowed : State → Action → Prop} (runId : String)
    (reached : Reachable (step d) allowed State.initial s) (later : Reachable (step d) allowed s t) :
    (s.db.view runId).events <+: (t.db.view runId).events := by
  refine reachable_invariant (P := fun t => (s.db.view runId).events <+: (t.db.view runId).events)
    (List.prefix_refl _) ?_ later
  intro t a u before grown may taken
  exact grown.trans
    (view_grows (coherent_reachable (reachable_trans reached before)) (step_effect taken) runId).1

theorem list_events_listed {db : Database} (tidy : Tidy runId (db.view runId)) :
    listEvents db runId = if (db.view runId).events = [] then .error (.workflowRunNotFound runId)
      else .ok (db.view runId).events := by
  have sorted : orderBy (·.sequence) (db.eventsOf runId) = db.eventsOf runId :=
    sequences_sorted tidy.sequences
  change listEvents db runId = if db.eventsOf runId = [] then .error (.workflowRunNotFound runId)
    else .ok (db.eventsOf runId)
  unfold listEvents
  rw [sorted]
  cases db.eventsOf runId <;> rfl

/-- While nobody rebuilds, a run once found is found by every later poll, with a history and a
    timeline that continue those seen before; a timeline that tells of the end is the last one. -/
theorem polls_continue (str : Json → String)
    (reached : Reachable (step d) noRebuild State.initial s)
    (later : Reachable (step d) noRebuild s t) (runId : String) : Polled str s.db t.db runId := by
  have faithful := faithful_reachable reached
  have faithful' := faithful_reachable (reachable_trans reached later)
  have tidy := faithful.guarded.coherent.tidy runId
  have tidy' := faithful'.guarded.coherent.tidy runId
  have listed := list_events_listed tidy
  have listed' := list_events_listed tidy'
  by_cases begun : (s.db.view runId).events = []
  · rw [if_pos begun] at listed
    refine .notFound ?_ ?_ ?_
    · by_contra there
      exact tidy.present there begun
    · simp only [Api.listWorkflowRunEvents, listed, Answer.orNotFound]
    · simp only [Api.workflowRunTimeline, listed, Answer.orNotFound]
  · obtain ⟨more, grown⟩ := history_grows runId reached later
    have begun' : (t.db.view runId).events ≠ [] := by
      rw [← grown]
      exact fun none => begun (List.append_eq_nil_iff.mp none).1
    rw [if_neg begun] at listed
    rw [if_neg begun', ← grown] at listed'
    obtain ⟨run, consistent⟩ := history_consistent faithful begun
    obtain ⟨run', consistent'⟩ := history_consistent faithful' begun'
    have accepted' := consistent_accepted tidy' consistent'
    rw [← grown] at accepted'
    obtain ⟨told, longer, built, built', extended⟩ :=
      timeline_extends str (consistent_accepted tidy consistent) accepted'
    refine .found (s.db.view runId).events more told longer ?_ ?_ ?_ ?_ ?_ extended
    · intro none
      exact begun (by rw [tidy.absent none]; rfl)
    · simp only [Api.listWorkflowRunEvents, listed, Answer.orNotFound]
    · simp only [Api.workflowRunTimeline, listed, Answer.orNotFound, built]
    · simp only [Api.listWorkflowRunEvents, listed', Answer.orNotFound]
    · simp only [Api.workflowRunTimeline, listed', Answer.orNotFound, built']

theorem charge_polled_twice : ∃ s t, run (step sharedWorker) State.initial chargeInFlight = some s ∧
    run (step sharedWorker) s chargeCompletion = some t ∧
    s.db.runsOf "a1" ≠ [] ∧ Polled (fun _ => "charge_1") s.db t.db "a1" := by
  have rows : ((run (step sharedWorker) State.initial chargeInFlight).bind fun s =>
      (run (step sharedWorker) s chargeCompletion).map fun _ => (s.db.runsOf "a1").length) = some 1 := by
    decide +kernel
  obtain ⟨s, ran, rows⟩ := Option.bind_eq_some_iff.mp rows
  obtain ⟨t, completed, rows⟩ := Option.map_eq_some_iff.mp rows
  refine ⟨s, t, ran, completed, ?_, polls_continue _ (reachable_run chargeInFlight ?_ .start ran)
    (reachable_run chargeCompletion ?_ .start completed) "a1"⟩
  · intro none
    simp [none] at rows
  · simp [chargeInFlight, retriedCharge, noRebuild]
  · simp [chargeCompletion, chargeDecided, noRebuild]

end Polls

end Crashsafe
