import Crashsafe.Agreement

/- Rebuilding the projection of a run while workers go on with it. The rebuild reads history
   before the transaction it writes in, and it deletes the run's lease row. -/
namespace Crashsafe
open Rows Replay Execution

/-- A rebuild of the run commits only while the history is the one its first read returned. -/
def RebuildsCurrent (runId : String) (s : State) (a : Action) : Prop :=
  ∀ p history rebuilt created db, a = .commitRebuild p →
    s.pc p = .rewriting runId history rebuilt created →
    rebuildProjection s.db runId rebuilt created = .ok db → history = s.db.eventsOf runId

/-- A transition that appends to the run's history commits only while the run is running. -/
def WritesRunning (d : Deployment) (runId : String) (s : State) (a : Action) : Prop :=
  ∀ t, step d s a = some t → t.db.eventsOf runId ≠ s.db.eventsOf runId →
    ∃ row ∈ s.db.runsOf runId, row.status = .running

def Undisturbed (d : Deployment) (runId : String) (s : State) (a : Action) : Prop :=
  RebuildsCurrent runId s a ∧ WritesRunning d runId s a

/-- No step of the run that was COMPLETED is anything else after the action. -/
def CompletedStay (d : Deployment) (runId : String) (s : State) (a : Action) : Prop :=
  ∀ t, step d s a = some t → ∀ row ∈ s.db.stepsOf runId, row.status = .completed →
    ∃ after ∈ t.db.stepsOf runId, after.id = row.id ∧ after.status = .completed

section OneStep
variable {d : Deployment} {s t : State} {a : Action} {runId : String}

theorem consistent_exists {v : RunView} {run : WorkflowRun} (h : Consistent runId v run) :
    v.runs ≠ [] := by
  obtain ⟨row, rows, _⟩ := h.row
  simp [rows]

/-- After a rebuild the two agree only if the history read is still the whole history. -/
theorem rebuild_current (coherent : Coherent s) {p : Nat} {history : List WorkflowRunEvent}
    {rebuilt : WorkflowRun} {created : WorkflowRunCreatedPayload} {db : Database}
    (was : s.pc p = .rewriting runId history rebuilt created)
    (done : rebuildProjection s.db runId rebuilt created = .ok db) :
    (∃ run, Consistent runId (db.view runId) run) ↔ history = s.db.eventsOf runId := by
  obtain ⟨reduced, later, grown⟩ := coherent.reads p runId history rebuilt (by rw [was]; rfl)
  rw [rebuild_consistent_iff (coherent.tidy runId).runIds grown.symm reduced done]
  change later = [] ↔ history = (s.db.view runId).events
  rw [← grown, List.self_eq_append_right]

theorem agreement_undisturbed (coherent : Coherent s) (taken : step d s a = some t)
    (before : ∃ run, Consistent runId (s.db.view runId) run)
    (after : ∃ run, Consistent runId (t.db.view runId) run) : Undisturbed d runId s a := by
  constructor
  · intro p history rebuilt created db acted was done
    subst acted
    simp only [step, was, done, Option.some.injEq] at taken
    subst taken
    exact (rebuild_current coherent was done).mp after
  · intro t' taken' appended
    rw [taken, Option.some.injEq] at taken'
    subst taken'
    obtain ⟨run, consistent⟩ := before
    cases effect_view coherent (step_effect taken) runId with
    | same view => exact absurd (congrArg RunView.events view) appended
    | created definition toolKey defaultToolKey now absent =>
      exact absurd (by rw [absent]; rfl) (consistent_exists consistent)
    | moved row now write member move =>
      obtain ⟨r, rows, _⟩ := consistent.row
      have inside : r ∈ (s.db.view runId).runs := by simp [rows]
      refine ⟨r, inside, ?_⟩
      by_contra ended
      have ended' : run.status ≠ .running := by rwa [consistent_status consistent inside]
      exact move_ended consistent ended' move after
    | granted owner now claim granted =>
      exact absurd (congrArg RunView.events (granted_view granted runId)) appended
    | touched pairs rest => exact absurd (congrArg RunView.events rest) appended
    | rebuilt p history rebuilt created acted was done =>
      have held : (s.pc p).reads? = some (runId, history, rebuilt) := by rw [was]; rfl
      exact absurd (congrArg RunView.events (rebuilt_views coherent held done).1) appended

theorem undisturbed_agreement (coherent : Coherent s) (taken : step d s a = some t)
    (before : ∃ run, Consistent runId (s.db.view runId) run) (careful : Undisturbed d runId s a) :
    ∃ run, Consistent runId (t.db.view runId) run := by
  obtain ⟨run, consistent⟩ := before
  cases effect_view coherent (step_effect taken) runId with
  | same view => exact view ▸ ⟨run, consistent⟩
  | created definition toolKey defaultToolKey now absent =>
    exact absurd (by rw [absent]; rfl) (consistent_exists consistent)
  | moved row now write member move =>
    have live := careful.2 t taken fun same => by
      obtain ⟨first, rest, grown⟩ := move_extends_events move
      have lengths := congrArg List.length (grown.symm.trans same)
      simp [Database.view] at lengths
    exact projected_moved (fun _ => ⟨run, consistent⟩) member live move
  | granted owner now claim granted =>
    rw [granted_view granted runId]
    exact ⟨run, consistent_leases consistent _⟩
  | touched pairs rest =>
    rw [rest]
    exact ⟨run, consistent_leases consistent _⟩
  | rebuilt p history rebuilt created acted was done =>
    exact (rebuild_current coherent was done).mpr
      (careful.1 p history rebuilt created t.db acted was done)

theorem move_keeps_completed {v w : RunView} (distinct : (v.steps.map (·.id)).Nodup) {row : StepRow}
    {now : Datetime} {write : Write} (member : row ∈ v.steps)
    (move : RunMove runId v row now write w) {other : StepRow} (inside : other ∈ v.steps)
    (completed : other.status = .completed) : other ∈ w.steps := by
  rw [move_steps move]
  refine mem_updateWhere.mpr ⟨other, inside, if_neg ?_⟩
  intro same
  -- The row a transition writes is runnable or in flight.
  have self : other = row := List.inj_on_of_nodup_map distinct inside member (by simpa using same)
  have permitted := move_permitted move
  rw [← self] at permitted
  cases write <;> simp [Write.Permits, completed, runnableStatuses] at permitted

theorem undisturbed_completed (coherent : Coherent s)
    (before : ∃ run, Consistent runId (s.db.view runId) run) (careful : Undisturbed d runId s a) :
    CompletedStay d runId s a := by
  intro t taken row member completed
  change row ∈ (s.db.view runId).steps at member
  obtain ⟨run, consistent⟩ := before
  have kept : row ∈ (t.db.view runId).steps → ∃ after ∈ t.db.stepsOf runId,
      after.id = row.id ∧ after.status = .completed := fun inside => ⟨row, inside, rfl, completed⟩
  cases effect_view coherent (step_effect taken) runId with
  | same view => exact kept (view ▸ member)
  | created definition toolKey defaultToolKey now absent =>
    exact absurd (by rw [absent]; rfl) (consistent_exists consistent)
  | moved written now write inside move =>
    exact kept (move_keeps_completed (coherent.tidy runId).distinct inside move member completed)
  | granted owner now claim granted =>
    rw [granted_view granted runId] at kept
    exact kept member
  | touched pairs rest =>
    rw [rest] at kept
    exact kept member
  | rebuilt p history rebuilt created acted was done =>
    obtain ⟨after, agrees⟩ := (rebuild_current coherent was done).mpr
      (careful.1 p history rebuilt created t.db acted was done)
    have held : (s.pc p).reads? = some (runId, history, rebuilt) := by rw [was]; rfl
    have events : (t.db.view runId).events = (s.db.view runId).events := by
      rw [(rebuilt_views coherent held done).1]
      rfl
    have same : after = run := by
      have folded := agrees.folded
      rw [events, consistent.folded] at folded
      simpa using folded.symm
    obtain ⟨row', inside, read⟩ := step_stored agrees (same ▸ row_read consistent member)
    exact ⟨row', inside, congrArg StepRecord.id read, (congrArg StepRecord.status read).trans completed⟩

end OneStep

/-- From a state in which a run's projection and history agree they go on agreeing through an
    execution exactly when every rebuild of the run commits on the history it read and every
    transition finds the run running; then COMPLETED steps stay COMPLETED. -/
theorem rebuild_loses_no_update_iff {d : Deployment} {s : State} {runId : String}
    (reached : Reachable (step d) anyStep State.initial s) (agrees : ProjectionMatches s.db runId)
    (actions : List Action) :
    (Always (step d) (fun t => ProjectionMatches t.db runId) s actions ↔
      EachStep (step d) (Undisturbed d runId) s actions) ∧
    (EachStep (step d) (Undisturbed d runId) s actions →
      EachStep (step d) (CompletedStay d runId) s actions) := by
  have coherent := coherent_reachable reached
  have preserved : ∀ s a t, Coherent s → ProjectionMatches s.db runId → step d s a = some t →
      (ProjectionMatches t.db runId ↔ Undisturbed d runId s a) := by
    intro s a t coherent before taken
    have after := coherent_effect coherent (step_effect taken)
    have agreed := (projection_matches_iff (coherent.tidy runId)).mp before
    rw [projection_matches_iff (after.tidy runId)]
    exact ⟨agreement_undisturbed coherent taken agreed, undisturbed_agreement coherent taken agreed⟩
  constructor
  · exact always_iff_eachStep (R := Coherent)
      (fun _ _ _ coherent taken => coherent_effect coherent (step_effect taken)) preserved actions s
      coherent agrees
  · refine eachStep_imp (R := fun s => Coherent s ∧ ProjectionMatches s.db runId) ?_ actions s
      ⟨coherent, agrees⟩
    rintro s a t ⟨coherent, before⟩ careful taken
    exact ⟨⟨coherent_effect coherent (step_effect taken),
        (preserved s a t coherent before taken).mpr careful⟩,
      undisturbed_completed coherent ((projection_matches_iff (coherent.tidy runId)).mp before) careful⟩

section Example

/- A worker charges while a rebuild that read the history before goes on. -/
def beforeRebuildReads : List Action :=
  [.beginCreate 0 "a1" onboarding none 1, .commitCreate 0, .beginClaim 0 2, .commitClaim 0 0,
    .beginRecord 0 3, .commitRecord 0 4, .send 0]

def chargedDuringRebuild : List Action :=
  [.readHistory 2 "a1", .readCreation 2, .resolve 0 (.result ⟨.charge, "charge_1", false⟩) 5,
    .beginDecision 0 6, .commitDecision 0 7, .commitRebuild 2]

theorem before_rebuild_agrees {s : State}
    (ran : run (step sharedWorker) State.initial beforeRebuildReads = some s) :
    Reachable (step sharedWorker) anyStep State.initial s ∧ ProjectionMatches s.db "a1" := by
  have created : (run (step sharedWorker) State.initial beforeRebuildReads).map
      (fun s => (s.db.runsOf "a1").length) = some 1 := by decide +kernel
  have quiet : Reachable (step sharedWorker) noRebuild State.initial s :=
    reachable_run beforeRebuildReads (by simp [beforeRebuildReads, noRebuild]) .start ran
  have faithful := faithful_reachable quiet
  refine ⟨reachable_weaken (fun _ _ _ => trivial) quiet,
    (projection_matches_iff (faithful.guarded.coherent.tidy "a1")).mpr
      (faithful.projected "a1" fun none => ?_)⟩
  rw [ran, Option.map_some, show s.db.runsOf "a1" = [] from none] at created
  cases created

theorem charged_during_rebuild_iff :
    ∃ s, run (step sharedWorker) State.initial beforeRebuildReads = some s ∧
      ((Always (step sharedWorker) (fun t => ProjectionMatches t.db "a1") s chargedDuringRebuild ↔
        EachStep (step sharedWorker) (Undisturbed sharedWorker "a1") s chargedDuringRebuild) ∧
      (EachStep (step sharedWorker) (Undisturbed sharedWorker "a1") s chargedDuringRebuild →
        EachStep (step sharedWorker) (CompletedStay sharedWorker "a1") s chargedDuringRebuild)) := by
  have ends : (run (step sharedWorker) State.initial beforeRebuildReads).isSome := by decide +kernel
  obtain ⟨s, ran⟩ := Option.isSome_iff_exists.mp ends
  obtain ⟨reached, agrees⟩ := before_rebuild_agrees ran
  exact ⟨s, ran, rebuild_loses_no_update_iff reached agrees chargedDuringRebuild⟩

/- What the two sides of the comparison say of the steps. -/

def projectedStatuses (db : Database) (runId : String) : Option (List StepStatus) :=
  (getWorkflowRun db runId).toOption.map fun run => run.steps.map (·.status)

def reducedStatuses (db : Database) (runId : String) : Option (List StepStatus) :=
  ((listEvents db runId).toOption.bind fun events => (reduceWorkflowRunHistory events).toOption).map
    fun run => run.steps.map (·.status)

theorem matching_statuses {db : Database} {runId : String} (h : ProjectionMatches db runId) :
    projectedStatuses db runId = reducedStatuses db runId := by
  obtain ⟨run, events, projected, listed, reduced⟩ := h
  simp [projectedStatuses, reducedStatuses, projected, listed, reduced, Except.toOption]

theorem rebuild_loses_completion :
    ¬ ∀ s, Reachable (step sharedWorker) anyStep State.initial s → ∀ runId,
      ProjectionMatches s.db runId → ∀ actions,
        Always (step sharedWorker) (fun t => ProjectionMatches t.db runId) s actions := by
  intro always
  -- The charge is COMPLETED in the history and runnable again in the projection.
  have statuses : ((run (step sharedWorker) State.initial beforeRebuildReads).bind fun s =>
      run (step sharedWorker) s chargedDuringRebuild).map
        (fun t => (projectedStatuses t.db "a1", reducedStatuses t.db "a1")) =
      some (some [.intentRecorded, .pending], some [.completed, .pending]) := by decide +kernel
  obtain ⟨t, ran, statuses⟩ := Option.map_eq_some_iff.mp statuses
  obtain ⟨s, before, during⟩ := Option.bind_eq_some_iff.mp ran
  obtain ⟨projected, reduced⟩ := Prod.mk.inj statuses
  obtain ⟨reached, agrees⟩ := before_rebuild_agrees before
  have throughout := always s reached "a1" agrees chargedDuringRebuild
  have after : ProjectionMatches t.db "a1" :=
    always_last (P := fun t => ProjectionMatches t.db "a1") _ throughout during
  have same := matching_statuses after
  rw [projected, reduced] at same
  exact absurd same (by decide)

end Example

end Crashsafe
