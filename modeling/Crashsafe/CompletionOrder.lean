import Crashsafe.Requests
import Crashsafe.Library.GreedyOrder

/- The order in which the steps of a run complete. A claim takes the first ready step in array
   order, and without retries every ready step of the run stays eligible until it is done. -/
namespace Crashsafe
open Rows Replay Execution Prefixes GreedyOrder

/-- The step of least array position among the unfinished ones with finished dependencies. -/
def WorkflowDefinition.nextStep (definition : WorkflowDefinition) (done : List String) :
    Option String :=
  nextReady (stepDependsOn definition.steps) (definition.steps.map (·.id)) done

def WorkflowDefinition.order (definition : WorkflowDefinition) : List String :=
  greedyOrder (stepDependsOn definition.steps) (definition.steps.map (·.id))

/-- The steps that a history completes, in sequence order. -/
def completedSteps (events : List WorkflowRunEvent) : List String :=
  events.filterMap fun e => if e.eventType = .stepCompleted then e.stepId else none

/-- A history that begins with the creation of a run of the definition. -/
def HistoryOf (definition : WorkflowDefinition) (events : List WorkflowRunEvent) : Prop :=
  ∃ runId toolKey defaultToolKey, (events.head?.bind (·.payload)) =
    some (.workflowRunCreated (createdPayload definition toolKey defaultToolKey runId))

def NoRetries (events : List WorkflowRunEvent) : Prop :=
  ∀ e ∈ events, e.eventType ≠ .stepRetryScheduled

instance (events : List WorkflowRunEvent) : Decidable (NoRetries events) :=
  inferInstanceAs (Decidable (∀ e ∈ events, _))

section Reading
variable {runId : String} {v : RunView} {run : WorkflowRun} {definition : WorkflowDefinition}
  {step : StepRecord}

theorem history_created (h : Consistent runId v run) (history : HistoryOf definition v.events) :
    ∃ target tool created, created.steps = materialize target tool definition.steps ∧
      FoldSound created v.events run := by
  obtain ⟨_, _, created, sound⟩ := consistent_sound h
  obtain ⟨first, rest, events, creation, _⟩ := sound.bracketed.creation
  obtain ⟨target, toolKey, defaultToolKey, payload⟩ := history
  rw [events, List.head?_cons, Option.bind_some, creation.payload] at payload
  cases payload
  exact ⟨target, selectedTool defaultToolKey toolKey, _, rfl, sound⟩

theorem history_ids (h : Consistent runId v run) (history : HistoryOf definition v.events) :
    run.steps.map (·.id) = definition.steps.map (·.id) := by
  obtain ⟨target, tool, created, steps, sound⟩ := history_created h history
  rw [← materialized_ids target definition.steps tool, ← steps, ← sound.snapshots, List.map_map]
  rfl

theorem history_depends (h : Consistent runId v run) (history : HistoryOf definition v.events)
    (member : step ∈ run.steps) : stepDependsOn definition.steps step.id = step.dependsOn := by
  obtain ⟨target, tool, created, steps, sound⟩ := history_created h history
  rw [← materialized_depends target definition.steps tool, ← steps, sound_depends sound member]

theorem history_tool (h : Consistent runId v run) (history : HistoryOf definition v.events)
    {other : StepRecord} (member : step ∈ run.steps) (member' : other ∈ run.steps) :
    step.toolKey = other.toolKey := by
  obtain ⟨target, tool, created, steps, sound⟩ := history_created h history
  have tools : ∀ x ∈ run.steps, x.toolKey = tool := by
    intro x inside
    have listed : snapshot x ∈ materialize target tool definition.steps := by
      rw [← steps, ← sound.snapshots]
      exact List.mem_map_of_mem inside
    obtain ⟨_, _, same⟩ := List.mem_map.mp listed
    exact (congrArg StepDefinition.toolKey same).symm
  rw [tools step member, tools other member']

/-- A step is COMPLETED exactly when a StepCompleted event names it. -/
theorem completed_iff_event (h : Consistent runId v run) {stepId : String} :
    stepId ∈ completedSteps v.events ↔ stepId ∈ completedIds run.steps := by
  simp only [completedSteps, List.mem_filterMap, completed_ids_mem]
  constructor
  · rintro ⟨e, member, named⟩
    split at named
    · rename_i kind
      obtain ⟨step, inside, same, reaches⟩ := final_from_event h.folded member named (.inl kind)
      rw [kind] at reaches
      generalize status : step.status = st at reaches
      cases reaches
      exact ⟨step, inside, status, same⟩
    · cases named
  · rintro ⟨step, inside, completed, rfl⟩
    obtain ⟨e, member, reaches, named⟩ := status_from_event h.folded inside (by simp [completed])
    rw [completed] at reaches
    generalize kind : e.eventType = k at reaches
    cases reaches
    exact ⟨e, member, by rw [if_pos kind, named]⟩

theorem row_unfinished (h : Consistent runId v run) {row : StepRow} (member : row ∈ v.steps) :
    row.id ∉ completedSteps v.events ↔ row.status ≠ .completed := by
  obtain ⟨_, _, _, sound⟩ := consistent_sound h
  rw [completed_iff_event h, completed_ids_mem, not_iff_not]
  constructor
  · rintro ⟨step, inside, completed, named⟩
    rwa [List.inj_on_of_nodup_map sound.distinct inside (row_read h member) named] at completed
  · exact fun completed => ⟨_, row_read h member, completed, rfl⟩

/-- Without retries no step waits for a deadline. -/
theorem no_deadline (h : Consistent runId v run) (quiet : NoRetries v.events) {row : StepRow}
    (member : row ∈ v.steps) : row.nextAttemptAt = none := by
  obtain ⟨_, _, _, sound⟩ := consistent_sound h
  have inside := row_read h member
  rw [← Option.not_isSome_iff_eq_none]
  intro waits
  have status : row.status = .retryWait := (sound.fields _ inside).nextAttemptAt.mp waits
  obtain ⟨e, there, reaches, _⟩ := status_from_event h.folded inside
    (by change row.status ≠ _; simp [status])
  change Reaches e.eventType row.status at reaches
  rw [status] at reaches
  generalize kind : e.eventType = k at reaches
  cases reaches
  exact quiet e there kind

end Reading

section Claims
variable {d : Deployment} {s t : State} {a : Action} {definition : WorkflowDefinition}

/-- A claim on a run without retries is for the next step of its order. -/
theorem granted_next (faithful : Faithful s) {owner : String} {now : Datetime} {db : Database}
    {claim : ClaimedStep} (granted : Granted s.db owner now db claim)
    (history : HistoryOf definition (s.db.view claim.lease.runId).events)
    (quiet : NoRetries (s.db.view claim.lease.runId).events) :
    definition.nextStep (completedSteps (s.db.view claim.lease.runId).events) =
      some claim.step.id := by
  obtain ⟨row, member, runRow, present, eligible, same⟩ := granted.selected
  obtain ⟨runRow', present', first⟩ := granted.first
  obtain ⟨run, h⟩ := faithful.projected claim.lease.runId (List.ne_nil_of_mem present)
  obtain ⟨_, _, _, sound⟩ := consistent_sound h
  obtain ⟨only, rows, _⟩ := h.row
  obtain rfl : runRow' = runRow := by
    rw [rows, List.mem_singleton] at present present'
    rw [present, present']
  obtain ⟨sameRun, running, runnable, _, throttle, lease, unblocked⟩ := eligible
  have status : run.status = .running := (consistent_status h present).trans running
  have inside := row_read h member
  obtain ⟨before, after, split⟩ := List.append_of_mem inside
  have rowRun := (mem_ofKey.mp member).2
  have unblocked : ¬ (s.db.view claim.lease.runId).Blocked row.id := by
    rwa [← blocked_view, ← rowRun]
  rw [same]
  refine next_ready_of_first (before.map (·.id)) (after.map (·.id)) ?_ ?_ ?_ ?_
  · rw [← history_ids h history, split]
    simp
  · apply (row_unfinished h member).mpr
    simp only [runnableStatuses, List.mem_cons, List.not_mem_nil, or_false] at runnable
    rcases runnable with status | status | status <;> simp [status]
  · rw [history_depends h history inside]
    exact fun d listed => (completed_iff_event h).mpr (ready_read h member unblocked d listed)
  · intro y earlier fresh
    obtain ⟨other, listed, rfl⟩ := List.mem_map.mp earlier
    have otherInside : other ∈ run.steps := by
      rw [split]
      exact List.mem_append_left _ listed
    obtain ⟨otherRow, otherMember, rfl⟩ := step_stored h otherInside
    by_contra ready
    push Not at ready
    have otherRun := (mem_ofKey.mp otherMember).2
    have open' : otherRow.status ≠ .completed := (row_unfinished h otherMember).mp fresh
    have otherReady : ¬ (s.db.view claim.lease.runId).Blocked otherRow.id := by
      refine ready_unblocked h fun d needs => (completed_iff_event h).mp (ready d ?_)
      rwa [history_depends h history otherInside]
    have sameTool : otherRow.toolKey = row.toolKey := history_tool h history otherInside inside
    have after := first otherRow otherMember ⟨by rw [sameRun, rowRun, otherRun], running,
      running_runnable h status otherMember open', by simp [no_deadline h quiet otherMember],
      by rwa [sameTool], by rwa [otherRun, ← rowRun], by rwa [otherRun, blocked_view]⟩
    -- The other step stands before the claimed one.
    have ordered := sound_positions sound
    rw [split, List.pairwise_append] at ordered
    have less := ordered.2.2 _ listed _ List.mem_cons_self
    rw [same] at after
    exact absurd less (not_lt.mpr after)

end Claims

/-- Every attempt is for the step that comes next after those completed before it. -/
def AttemptsInOrder (definition : WorkflowDefinition) (events : List WorkflowRunEvent) : Prop :=
  EachAfter (fun before e => e.eventType = .stepAttemptStarted → ∃ stepId, e.stepId = some stepId ∧
    definition.nextStep (completedSteps before) = some stepId) events

/- What holds of the rows and the history of a run without retries. -/
structure ViewInOrder (definition : WorkflowDefinition) (v : RunView) : Prop where
  completions : Greedy (stepDependsOn definition.steps) (definition.steps.map (·.id))
    (completedSteps v.events)
  attempts : AttemptsInOrder definition v.events
  current : ∀ row ∈ v.steps, row.status = .intentRecorded →
    definition.nextStep (completedSteps v.events) = some row.id

/-- The step is finished, or no other comes before it. -/
def Awaited (definition : WorkflowDefinition) (events : List WorkflowRunEvent) (stepId : String) :
    Prop :=
  stepId ∈ completedSteps events ∨ definition.nextStep (completedSteps events) = some stepId

/-- A history that completes no more steps, or the next one. -/
def AtMostNext (definition : WorkflowDefinition) (before after : List WorkflowRunEvent) : Prop :=
  completedSteps after = completedSteps before ∨
    ∃ stepId, definition.nextStep (completedSteps before) = some stepId ∧
      completedSteps after = completedSteps before ++ [stepId]

section Moves
variable {runId : String} {v w : RunView} {run : WorkflowRun} {definition : WorkflowDefinition}
  {row : StepRow} {now : Datetime} {write : Write} {before after more : List WorkflowRunEvent}

theorem completed_steps_append :
    completedSteps (before ++ more) = completedSteps before ++ completedSteps more :=
  List.filterMap_append

theorem awaited_later {stepId : String} (grown : AtMostNext definition before after)
    (awaited : Awaited definition before stepId) : Awaited definition after stepId := by
  rcases grown with same | ⟨next, first, more⟩
  · unfold Awaited
    rwa [same]
  · refine .inl ?_
    rw [more, List.mem_append, List.mem_singleton]
    rcases awaited with done | next'
    · exact .inl done
    · rw [first, Option.some.injEq] at next'
      exact .inr next'.symm

/-- Events that start and complete no step change nothing about the order. -/
theorem in_order_kept (ordered : ViewInOrder definition v) (grown : w.events = v.events ++ more)
    (dull : ∀ e ∈ more, e.eventType ≠ .stepAttemptStarted ∧ e.eventType ≠ .stepCompleted)
    (rows : ∀ r ∈ w.steps, r.status = .intentRecorded →
      ∃ r' ∈ v.steps, r'.id = r.id ∧ r'.status = .intentRecorded) :
    ViewInOrder definition w ∧ completedSteps w.events = completedSteps v.events := by
  have none : completedSteps more = [] := by
    apply List.filterMap_eq_nil_iff.mpr
    intro e member
    rw [if_neg (dull e member).2]
  have same : completedSteps w.events = completedSteps v.events := by
    rw [grown, completed_steps_append, none, List.append_nil]
  refine ⟨⟨?_, ?_, ?_⟩, same⟩
  · rw [same]
    exact ordered.completions
  · unfold AttemptsInOrder
    rw [grown]
    exact each_after_append ordered.attempts fun _ e member kind =>
      absurd kind (dull e member).1
  · intro r member active
    obtain ⟨r', inside, named, active'⟩ := rows r member active
    rw [same, ordered.current r' inside active', named]

theorem started_in_order (ordered : ViewInOrder definition v)
    (next : definition.nextStep (completedSteps v.events) = some row.id) {e : WorkflowRunEvent}
    (grown : w.events = v.events ++ [e]) (kind : e.eventType = .stepAttemptStarted)
    (named : e.stepId = some row.id) (rows : ∀ r ∈ w.steps, r.id = row.id ∨ r ∈ v.steps) :
    ViewInOrder definition w ∧ AtMostNext definition v.events w.events := by
  have same : completedSteps w.events = completedSteps v.events := by
    simp [grown, completedSteps, kind]
  refine ⟨⟨?_, ?_, ?_⟩, .inl same⟩
  · rw [same]
    exact ordered.completions
  · unfold AttemptsInOrder
    rw [grown]
    exact each_after_snoc.mpr ⟨ordered.attempts, fun _ => ⟨row.id, named, next⟩⟩
  · intro r inside active
    rw [same]
    rcases rows r inside with mine | old
    · rw [mine, next]
    · exact ordered.current r old active

/-- The step in flight is the next one; once it is complete, no step is in flight. -/
theorem completed_in_order (h : Consistent runId v run) (ordered : ViewInOrder definition v)
    (member : row ∈ v.steps) (active : row.status = .intentRecorded) {output : Json}
    {version attempt : Int}
    (written : w = (v.append runId (.stepCompleted ⟨output⟩) now (some row.id) (some attempt)
      version).setStep row.id (setCompleted output now)) :
    ViewInOrder definition w ∧ AtMostNext definition v.events w.events := by
  have next := ordered.current row member active
  have grown : completedSteps w.events = completedSteps v.events ++ [row.id] := by
    rw [written]
    exact completed_steps_append
  refine ⟨⟨?_, ?_, ?_⟩, .inr ⟨row.id, next, grown⟩⟩
  · rw [grown]
    exact greedy_snoc.mpr ⟨ordered.completions, next⟩
  · rw [written]
    exact each_after_snoc.mpr ⟨ordered.attempts, nofun⟩
  · intro r inside active'
    rw [written] at inside
    rcases mem_set_rows h member inside with rfl | ⟨old, differs⟩
    · cases active'
    · have other := ordered.current r old active'
      rw [next, Option.some.injEq] at other
      exact absurd other.symm differs

theorem move_in_order (h : Consistent runId v run) (ordered : ViewInOrder definition v)
    (member : row ∈ v.steps) (move : RunMove runId v row now write w) (quiet : NoRetries w.events)
    (awaited : ∀ owner token, write = .attempt owner token → Awaited definition v.events row.id) :
    ViewInOrder definition w ∧ AtMostNext definition v.events w.events := by
  cases move with
  | attempted owner token runnable ready paired =>
    have unfinished : row.id ∉ completedSteps v.events := by
      apply (row_unfinished h member).mpr
      intro completed
      simp [completed, runnableStatuses] at runnable
    have next := (awaited owner token rfl).resolve_left unfinished
    refine started_in_order ordered next rfl rfl rfl fun r inside => ?_
    rcases mem_set_rows h member inside with rfl | ⟨old, _⟩
    · exact .inl rfl
    · exact .inr old
  | retried error nextAttemptAt active =>
    exact absurd rfl (quiet (eventOf runId v.events (.stepRetryScheduled ⟨error, nextAttemptAt⟩) now
      (some row.id) (some row.attempts) eventSchemaVersion) (by simp [RunView.setStep, RunView.append]))
  | failed error active =>
    refine (in_order_kept ordered (List.append_assoc _ _ _) ?_ ?_).imp id .inl
    · simp [eventOf, EventPayload.eventType]
    · intro r inside active'
      rcases mem_set_rows h member inside with rfl | ⟨old, _⟩
      · cases active'
      · exact ⟨r, old, rfl, active'⟩
  | completed output active w written more => exact completed_in_order h ordered member active written
  | finished output active w' written all =>
    obtain ⟨ordered', grown⟩ := completed_in_order h ordered member active written
    have ended : ViewInOrder definition ((w'.append runId .workflowRunCompleted now none none
        eventSchemaVersion).setRun (setRunCompleted now)) ∧ _ :=
      in_order_kept ordered' rfl (by simp [eventOf, EventPayload.eventType])
        fun r inside active => ⟨r, inside, rfl, active⟩
    refine ended.imp id fun same => ?_
    unfold AtMostNext
    rwa [same]

end Moves

/-- The invariant of a run whose history has no retry. -/
structure InOrder (definition : WorkflowDefinition) (s : State) (runId : String) : Prop where
  view : ViewInOrder definition (s.db.view runId)
  claims : ∀ p claim, (s.pc p).unrecorded? = some claim → claim.lease.runId = runId →
    Awaited definition (s.db.view runId).events claim.step.id

section Runs
variable {d : Deployment} {s t : State} {a : Action} {definition : WorkflowDefinition}
  {runId : String}

theorem created_in_order {db db' : Database} {submitted : WorkflowDefinition}
    {toolKey : Option String} {defaultToolKey : String} {now : Datetime}
    (absent : db.view runId = RunView.empty)
    (done : createWorkflowRun db submitted toolKey defaultToolKey runId now = .ok db') :
    ViewInOrder definition (db'.view runId) := by
  have fresh : ∀ row ∈ (db'.view runId).steps, FreshRow runId row :=
    fun _ member => created_row absent done member
  rw [(create_ok absent done).1] at fresh ⊢
  refine ⟨greedy_nil, ?_, fun row member active => ?_⟩
  · exact each_after_snoc.mpr ⟨each_after_nil, nofun⟩
  · rw [(fresh row member).pending] at active
    cases active

theorem view_in_order_effect (faithful : Faithful s) (effect : Effect d s a t)
    (ordered : InOrder definition s runId) (quiet : NoRetries (t.db.view runId).events)
    (present : (s.db.view runId).runs ≠ []) :
    ViewInOrder definition (t.db.view runId) ∧
      AtMostNext definition (s.db.view runId).events (t.db.view runId).events := by
  have guarded := faithful.guarded
  cases effect_view guarded.coherent effect runId with
  | same view =>
    rw [view]
    exact ⟨ordered.view, .inl rfl⟩
  | created definition toolKey defaultToolKey now absent =>
    rw [absent] at present
    exact absurd rfl present
  | moved row now write member move mover =>
    obtain ⟨run, h⟩ := faithful.projected runId present
    apply move_in_order h ordered.view member move quiet
    intro owner token attempt
    cases mover with
    | recorded p claim step now' leaseNow was after here named =>
      rw [← named]
      exact ordered.claims p claim (by rw [was]; rfl) here
    | decided p claim step decision => cases decision <;> cases attempt
  | granted owner now claim granted =>
    rw [granted_view granted runId]
    exact ⟨⟨ordered.view.completions, ordered.view.attempts, ordered.view.current⟩, .inl rfl⟩
  | touched pairs rest =>
    rw [rest]
    exact ⟨⟨ordered.view.completions, ordered.view.attempts, ordered.view.current⟩, .inl rfl⟩
  | rebuilt p history rebuilt created acted was =>
    have unread := guarded.unread p
    rw [was] at unread
    cases unread

/-- A history goes on beginning with the creation it began with. -/
theorem history_kept {actions : List Action} (reached : Reachable (step d) noRebuild State.initial s)
    (quiet : ∀ s, ∀ a ∈ actions, noRebuild s a) (ran : run (step d) s actions = some t)
    (history : HistoryOf definition (s.db.view runId).events) :
    HistoryOf definition (t.db.view runId).events := by
  induction actions generalizing s with
  | nil =>
    cases ran
    exact history
  | cons a rest ih =>
    obtain ⟨u, taken, ran⟩ := Option.bind_eq_some_iff.mp ran
    obtain ⟨more, grown⟩ :=
      (view_grows (guarded_reachable reached).coherent (step_effect taken) runId).1
    have nonempty : (s.db.view runId).events ≠ [] := by
      intro empty
      obtain ⟨_, _, _, none⟩ := history
      rw [empty] at none
      cases none
    refine ih (.next reached (quiet s a (by simp)) taken)
      (fun s b member => quiet s b (List.mem_cons_of_mem a member)) ran ?_
    unfold HistoryOf at history ⊢
    rwa [← grown, List.head?_append_of_ne_nil _ nonempty]

theorem in_order_effect (faithful : Faithful s) (effect : Effect d s a t)
    (before : HistoryOf definition (s.db.view runId).events →
      NoRetries (s.db.view runId).events → InOrder definition s runId)
    (history : HistoryOf definition (t.db.view runId).events)
    (quiet : NoRetries (t.db.view runId).events) : InOrder definition t runId := by
  have guarded := faithful.guarded
  by_cases present : (s.db.view runId).runs = []
  · have absent := (guarded.coherent.tidy runId).absent present
    have unclaimed : ∀ p claim, (t.pc p).unrecorded? = some claim → claim.lease.runId ≠ runId := by
      rintro p claim held rfl
      rcases unrecorded_effect effect held with old | ⟨_, now, granted⟩
      · have issued := (guarded.coherent.claims p claim (unrecorded_claim old)).1
        exact (guarded.coherent.issued _ issued).2 present
      · obtain ⟨_, member, _⟩ := granted.selected
        rw [absent] at member
        cases member
    refine ⟨?_, fun p claim held here => absurd here (unclaimed p claim held)⟩
    cases effect_view guarded.coherent effect runId with
    | created definition toolKey defaultToolKey now absent done => exact created_in_order absent done
    | same view =>
      rw [view, absent] at history
      obtain ⟨_, _, _, none⟩ := history
      cases none
    | moved row now write member =>
      rw [absent] at member
      cases member
    | granted owner now claim granted here =>
      obtain ⟨_, member, _⟩ := granted.selected
      rw [here, absent] at member
      cases member
    | touched pairs rest =>
      rw [rest, absent] at history
      obtain ⟨_, _, _, none⟩ := history
      cases none
    | rebuilt p history rebuilt created acted was =>
      have unread := guarded.unread p
      rw [was] at unread
      cases unread
  · obtain ⟨more, grown⟩ := (view_grows guarded.coherent effect runId).1
    have nonempty := (guarded.coherent.tidy runId).present present
    have history' : HistoryOf definition (s.db.view runId).events := by
      unfold HistoryOf at history ⊢
      rwa [← grown, List.head?_append_of_ne_nil _ nonempty] at history
    have quiet' : NoRetries (s.db.view runId).events := fun e member =>
      quiet e (grown ▸ List.mem_append_left _ member)
    have ordered := before history' quiet'
    obtain ⟨view, grown⟩ := view_in_order_effect faithful effect ordered quiet present
    refine ⟨view, fun p claim held here => ?_⟩
    rcases unrecorded_effect effect held with old | ⟨_, now, granted⟩
    · exact awaited_later grown (ordered.claims p claim old here)
    · subst here
      exact awaited_later grown (.inr (granted_next faithful granted history' quiet'))

theorem in_order_reachable (reached : Reachable (step d) noRebuild State.initial s)
    (history : HistoryOf definition (s.db.view runId).events)
    (quiet : NoRetries (s.db.view runId).events) : InOrder definition s runId := by
  have start : HistoryOf definition (State.initial.db.view runId).events →
      NoRetries (State.initial.db.view runId).events → InOrder definition State.initial runId := by
    rintro ⟨_, _, _, none⟩
    cases none
  refine reachable_invariant (P := fun s => HistoryOf definition (s.db.view runId).events →
    NoRetries (s.db.view runId).events → InOrder definition s runId) start ?_ reached history quiet
  intro s a t earlier before may taken
  exact in_order_effect (faithful_reachable earlier) (step_effect taken) before

/-- The completions of a history are the beginning of the definition's order, and its attempts
    are for what comes next there. -/
structure FollowsOrder (definition : WorkflowDefinition) (events : List WorkflowRunEvent) : Prop where
  completions : completedSteps events <+: definition.order
  attempts : ∀ before e after, events = before ++ e :: after → e.eventType = .stepAttemptStarted →
    ∃ stepId, e.stepId = some stepId ∧
      definition.order[(completedSteps before).length]? = some stepId

theorem view_follows_order {v : RunView} (ordered : ViewInOrder definition v) :
    FollowsOrder definition v.events := by
  refine ⟨greedy_begins ordered.completions, fun before e after split kind => ?_⟩
  obtain ⟨stepId, named, next⟩ := ordered.attempts before e after split kind
  have completions := ordered.completions
  rw [split, completed_steps_append] at completions
  exact ⟨stepId, named, greedy_next (each_after_left completions) next⟩

/-- The order takes every step of a definition once. -/
theorem order_perm (definition : WorkflowDefinition) :
    definition.order.Perm (definition.steps.map (·.id)) := by
  obtain ⟨distinct, _, order, ordered, listed, covers⟩ := validate_graph_ok definition.graph
  obtain ⟨greedy, _⟩ := greedy_order_maximal (stepDependsOn definition.steps)
    (definition.steps.map (·.id))
  obtain ⟨once, inside⟩ := greedy_distinct greedy
  exact (List.perm_ext_iff_of_nodup once distinct).mpr fun x =>
    ⟨inside x, greedy_covers ordered listed covers x⟩

theorem completed_in_full {v : RunView} {run : WorkflowRun} (h : Consistent runId v run)
    (history : HistoryOf definition v.events) (ordered : ViewInOrder definition v)
    (completed : run.status = .completed) : completedSteps v.events = definition.order := by
  obtain ⟨_, _, _, sound⟩ := consistent_sound h
  apply greedy_complete ordered.completions
  intro stepId listed
  rw [← history_ids h history] at listed
  obtain ⟨step, inside, rfl⟩ := List.mem_map.mp listed
  exact (completed_iff_event h).mpr
    (completed_ids_mem.mpr ⟨step, inside, sound.completed completed step inside, rfl⟩)

/-- Whoever runs the steps of a definition, without retries they complete in one order. -/
theorem completions_deterministic (reached : Reachable (step d) noRebuild State.initial s)
    {events : List WorkflowRunEvent} (listed : listEvents s.db runId = .ok events)
    (history : HistoryOf definition events) (quiet : NoRetries events) :
    definition.order.Perm (definition.steps.map (·.id)) ∧ FollowsOrder definition events ∧
      ∀ run, getWorkflowRun s.db runId = .ok run → run.status = .completed →
        completedSteps events = definition.order := by
  obtain rfl := list_events_ok ((guarded_reachable reached).coherent.tidy runId) listed
  have ordered := (in_order_reachable reached history quiet).view
  exact ⟨order_perm definition, view_follows_order ordered, fun run read completed =>
    completed_in_full (projected_consistent reached read) history ordered completed⟩

end Runs

/- Two workers take turns at the steps of a run. -/
def onboardedInTurns : List Action :=
  [.beginClaim 0 2, .commitClaim 0 0, .beginRecord 0 3, .commitRecord 0 4, .send 0,
    .resolve 0 (.result ⟨.charge, "charge_1", false⟩) 5, .beginDecision 0 6, .commitDecision 0 7,
    .beginRelease 0 8, .commitRelease 0, .beginClaim 1 9, .commitClaim 1 0, .beginRecord 1 10,
    .commitRecord 1 11, .send 1, .resolve 1 (.result ⟨.provision, "provision_1", false⟩) 12,
    .beginDecision 1 13, .commitDecision 1 14]

theorem onboarded_in_order : ∃ s t events,
    run (step sharedWorker) State.initial (retriedCharge.take 2) = some s ∧
      run (step sharedWorker) s onboardedInTurns = some t ∧ listEvents t.db "a1" = .ok events ∧
      completedSteps events = ["charge", "provision"] ∧ FollowsOrder onboarding events := by
  have began : (run (step sharedWorker) State.initial (retriedCharge.take 2)).map (fun s =>
      (s.db.eventsOf "a1").head?.bind (·.payload)) =
        some (some (.workflowRunCreated (createdPayload onboarding none "mock-tool" "a1"))) := rfl
  have told : ((run (step sharedWorker) State.initial (retriedCharge.take 2)).bind fun s =>
      (run (step sharedWorker) s onboardedInTurns).bind fun t =>
        (listEvents t.db "a1").toOption).map (fun events => (completedSteps events,
          decide (NoRetries events))) =
            some (["charge", "provision"], true) := by
    decide +kernel
  obtain ⟨s, created, first⟩ := Option.map_eq_some_iff.mp began
  rw [created, Option.bind_some] at told
  obtain ⟨events, ran, told⟩ := Option.map_eq_some_iff.mp told
  obtain ⟨t, ran, listed⟩ := Option.bind_eq_some_iff.mp ran
  have listed := to_option_some.mp listed
  have early : Reachable (step sharedWorker) noRebuild State.initial s :=
    reachable_run (retriedCharge.take 2) (by simp [retriedCharge, noRebuild]) .start created
  have quiet : ∀ s, ∀ a ∈ onboardedInTurns, noRebuild s a := by simp [onboardedInTurns, noRebuild]
  have reached := reachable_run onboardedInTurns quiet early ran
  have history : HistoryOf onboarding (t.db.view "a1").events :=
    history_kept early quiet ran ⟨"a1", none, "mock-tool", first⟩
  rw [← list_events_ok ((guarded_reachable reached).coherent.tidy "a1") listed] at history
  refine ⟨s, t, events, created, ran, listed, congrArg Prod.fst told, ?_⟩
  exact (completions_deterministic reached listed history
    (of_decide_eq_true (congrArg Prod.snd told))).2.1

end Crashsafe
