import Crashsafe.Agreement

/- A reader next to the workers. get_workflow_run takes no transaction: each of its SELECTs
   sees the last committed state of its own moment, and workers commit in between. -/
namespace Crashsafe
open Rows Replay Execution

/-- `get_workflow_run` with the state that each of its three SELECTs sees. -/
def getWorkflowRunAcross (first second third : Database) (runId : String) :
    Except StorageError WorkflowRun :=
  match first.runsOf runId with
  | [] => .error (.workflowRunNotFound runId)
  | run :: _ => .ok (workflowRunFromRows run (orderBy (·.position) (second.stepsOf runId))
      (dependencies (third.dependenciesOf runId)))

theorem get_workflow_run_undisturbed (db : Database) (runId : String) :
    getWorkflowRunAcross db db db runId = getWorkflowRun db runId := rfl

/-- A run that is still running and whose steps say that it has ended. -/
def HalfTransition (run : WorkflowRun) : Prop :=
  run.status = .running ∧
    ((∀ step ∈ run.steps, step.status = .completed) ∨ ∃ step ∈ run.steps, step.status = .failed)

/- How the rows of a run differ between two moments: they may have become terminal. -/
structure Later (v w : RunView) : Prop where
  dependencies : w.dependencies = v.dependencies
  runs : w.runs = v.runs ∨
    (∃ row ∈ v.runs, row.status = .running) ∧ ∀ row ∈ w.runs, row.status ≠ .running
  count : w.runs.length = v.runs.length

section Moments
variable {d : Deployment} {s t : State} {a : Action} {runId : String} {u v w : RunView}

theorem later_refl : Later v v := ⟨rfl, .inl rfl, rfl⟩

theorem later_trans (first : Later u v) (second : Later v w) : Later u w := by
  refine ⟨second.dependencies.trans first.dependencies, ?_, second.count.trans first.count⟩
  rcases first.runs with same | ⟨running, ended⟩
  · rw [← same]
    exact second.runs
  · rcases second.runs with same | ⟨⟨row, member, still⟩, _⟩
    · rw [same]
      exact .inr ⟨running, ended⟩
    · exact absurd still (ended row member)

theorem later_leases (rest : w = { v with leases := w.leases }) : Later v w := by
  rw [rest]
  exact ⟨rfl, .inl rfl, rfl⟩

theorem later_move {row : StepRow} {now : Datetime} {write : Write}
    (live : ∃ r ∈ v.runs, r.status = .running) (move : RunMove runId v row now write w) :
    Later v w := by
  rcases move_runs move with same | failed | completed
  · exact ⟨move_dependencies move, .inl same, congrArg List.length same⟩
  · refine ⟨move_dependencies move, .inr ⟨live, fun row member => ?_⟩, by simp [failed]⟩
    rw [failed] at member
    obtain ⟨old, _, rfl⟩ := List.mem_map.mp member
    simp [setRunFailed]
  · refine ⟨move_dependencies move, .inr ⟨live, fun row member => ?_⟩, by simp [completed]⟩
    rw [completed] at member
    obtain ⟨old, _, rfl⟩ := List.mem_map.mp member
    simp [setRunCompleted]

theorem later_effect (faithful : Faithful s) (effect : Effect d s a t)
    (present : (s.db.view runId).runs ≠ []) : Later (s.db.view runId) (t.db.view runId) := by
  cases effect_view faithful.guarded.coherent effect runId with
  | same view => rw [view]; exact later_refl
  | created definition toolKey defaultToolKey now absent =>
    exact absurd (by rw [absent]; rfl) present
  | moved row now write member move mover => exact later_move (mover_running faithful mover) move
  | granted owner now claim granted => exact later_leases (granted_view granted runId)
  | touched pairs rest => exact later_leases rest
  | rebuilt p history rebuilt created acted was =>
    have unread := faithful.guarded.unread p
    rw [was] at unread
    cases unread

theorem later_run (actions : List Action) (reached : Reachable (step d) noRebuild State.initial s)
    (quiet : ∀ s, ∀ a ∈ actions, noRebuild s a) (ran : run (step d) s actions = some t)
    (present : (s.db.view runId).runs ≠ []) : Later (s.db.view runId) (t.db.view runId) := by
  induction actions generalizing s with
  | nil =>
    cases ran
    exact later_refl
  | cons a rest ih =>
    obtain ⟨u, taken, ran⟩ := Option.bind_eq_some_iff.mp ran
    have effect := step_effect taken
    have faithful := faithful_reachable reached
    have first := later_effect faithful effect present
    have still : (u.db.view runId).runs ≠ [] :=
      (view_grows faithful.guarded.coherent effect runId).2 present
    exact later_trans first (ih (.next reached (quiet s a (by simp)) taken)
      (fun s b member => quiet s b (List.mem_cons_of_mem a member)) ran still)

theorem settled_not_half {run : WorkflowRun} (settled : settle run = .ok run) :
    ¬ HalfTransition run := by
  rintro ⟨running, all | ⟨step, member, failed⟩⟩
  · obtain ⟨step, member, unfinished⟩ := ((settle_ok.mp settled).2 running).2
    exact unfinished (all step member)
  · exact ((settle_ok.mp settled).2 running).1 step member failed

end Moments

/-- The run returned is one that a single committed state projects. -/
structure ReadsCommitted (d : Deployment) (runId : String) (s : State) (actions : List Action)
    (returned : WorkflowRun) : Prop where
  committed : ∃ done rest t, actions = done ++ rest ∧ run (step d) s done = some t ∧
    getWorkflowRun t.db runId = .ok returned
  whole : ¬ HalfTransition returned

/-- A read between commits is exact unless the run ends between its first two SELECTs. -/
theorem reads_committed_iff {d : Deployment} {runId : String} {s t u : State}
    {between after : List Action} {returned : WorkflowRun}
    (reached : Reachable (step d) noRebuild State.initial s)
    (ran : run (step d) s between = some t) (later : run (step d) t after = some u)
    (quiet : ∀ s, ∀ a ∈ between ++ after, noRebuild s a)
    (read : getWorkflowRunAcross s.db t.db u.db runId = .ok returned) :
    ReadsCommitted d runId s (between ++ after) returned ↔
      t.db.runsOf runId = s.db.runsOf runId := by
  have quietBetween : ∀ s, ∀ a ∈ between, noRebuild s a := fun s a member =>
    quiet s a (List.mem_append_left _ member)
  have quietAfter : ∀ s, ∀ a ∈ after, noRebuild s a := fun s a member =>
    quiet s a (List.mem_append_right _ member)
  have reachedMiddle : Reachable (step d) noRebuild State.initial t :=
    reachable_run between quietBetween reached ran
  unfold getWorkflowRunAcross at read
  split at read
  · cases read
  rename_i row others rows
  cases read
  have present : (s.db.view runId).runs ≠ [] := by
    change s.db.runsOf runId ≠ []
    simp [rows]
  have first := later_run between reached quietBetween ran present
  have presentMiddle : (t.db.view runId).runs ≠ [] := by
    rw [← List.length_pos_iff, first.count]
    exact List.length_pos_iff.mpr present
  have second := later_run after reachedMiddle quietAfter later presentMiddle
  have edges : u.db.dependenciesOf runId = t.db.dependenciesOf runId := second.dependencies
  obtain ⟨run, consistent⟩ := (faithful_reachable reachedMiddle).projected runId presentMiddle
  have steps : run.steps = (orderBy (·.position) (t.db.stepsOf runId)).map
      (stepFromRow (dependencies (t.db.dependenciesOf runId))) := consistent_steps consistent
  constructor
  · rintro ⟨_, whole⟩
    rcases first.runs with same | ⟨⟨row', member, running⟩, ended⟩
    · exact same
    refine absurd ⟨?_, ?_⟩ whole
    · have single : (row :: others).length ≤ 1 :=
        rows ▸ ((faithful_reachable reached).guarded.coherent.tidy runId).runs
      obtain rfl : others = [] := by simpa using single
      have member : row' ∈ s.db.runsOf runId := member
      rw [rows, List.mem_singleton] at member
      exact member ▸ running
    · obtain ⟨_, _, _, sound⟩ := consistent_sound consistent
      obtain ⟨row, member⟩ := List.exists_mem_of_ne_nil _ presentMiddle
      have ended := consistent_status consistent member ▸ ended row member
      change (∀ step ∈ List.map _ _, _) ∨ ∃ step ∈ List.map _ _, _
      rw [edges, ← steps]
      cases status : run.status with
      | running => exact absurd status ended
      | completed => exact .inl (sound.completed status)
      | failed => exact .inr (sound.failed status)
  · intro same
    have projected : getWorkflowRun t.db runId = .ok (workflowRunFromRows row
        (orderBy (·.position) (t.db.stepsOf runId)) (dependencies (u.db.dependenciesOf runId))) := by
      simp only [getWorkflowRun, same, rows, edges]
    exact ⟨⟨between, after, t, rfl, ran, projected⟩,
      settled_not_half (projected_consistent reachedMiddle projected).settled⟩

section Example

def chargeDecided (outcome : Outcome) : List Action :=
  [.resolve 0 outcome 5, .beginDecision 0 6, .commitDecision 0 7]

def chargeCompletion : List Action := chargeDecided (.result ⟨.charge, "charge_1", false⟩)

def chargeFailure : List Action := chargeDecided (.permanent "card declined")

theorem completion_read_whole : ∃ s t returned,
    run (step sharedWorker) State.initial chargeInFlight = some s ∧
      run (step sharedWorker) s chargeCompletion = some t ∧
      getWorkflowRunAcross s.db t.db t.db "a1" = .ok returned ∧
      ReadsCommitted sharedWorker "a1" s (chargeCompletion ++ []) returned := by
  have statuses : ((run (step sharedWorker) State.initial chargeInFlight).bind fun s =>
      (run (step sharedWorker) s chargeCompletion).map fun t =>
        ((getWorkflowRunAcross s.db t.db t.db "a1").toOption.isSome,
          (s.db.runsOf "a1").map (·.status), (t.db.runsOf "a1").map (·.status))) =
      some (true, [.running], [.running]) := by
    decide +kernel
  obtain ⟨s, ran, statuses⟩ := Option.bind_eq_some_iff.mp statuses
  obtain ⟨t, later, statuses⟩ := Option.map_eq_some_iff.mp statuses
  obtain ⟨returned, read⟩ := Option.isSome_iff_exists.mp (congrArg Prod.fst statuses)
  have read := to_option_some.mp read
  have reached : Reachable (step sharedWorker) noRebuild State.initial s :=
    reachable_run chargeInFlight (by simp [chargeInFlight, retriedCharge, noRebuild]) .start ran
  have quiet : ∀ s, ∀ a ∈ chargeCompletion ++ [], noRebuild s a := by
    simp [chargeCompletion, chargeDecided, noRebuild]
  have still : (t.db.runsOf "a1").map (·.status) = [.running] := congrArg (·.2.2) statuses
  have present : (s.db.view "a1").runs ≠ [] := by
    intro none
    have none : s.db.runsOf "a1" = [] := none
    simp [none] at statuses
  refine ⟨s, t, returned, ran, later, read, (reads_committed_iff reached later rfl quiet read).mpr ?_⟩
  rcases (later_run chargeCompletion reached (by simpa using quiet) later present).runs with
    same | ⟨_, ended⟩
  · exact same
  · obtain ⟨row, shape, running⟩ := List.map_eq_singleton_iff.mp still
    exact absurd running (ended row (by simp [Database.view, shape]))

/- The row read says running, the step read says failed. -/
theorem failure_read_in_halves : ∃ s t returned,
    run (step sharedWorker) State.initial chargeInFlight = some s ∧
      run (step sharedWorker) s chargeFailure = some t ∧
      getWorkflowRunAcross s.db t.db t.db "a1" = .ok returned ∧
      ¬ ReadsCommitted sharedWorker "a1" s chargeFailure returned := by
  have statuses : ((run (step sharedWorker) State.initial chargeInFlight).bind fun s =>
      (run (step sharedWorker) s chargeFailure).map fun t =>
        (getWorkflowRunAcross s.db t.db t.db "a1").toOption.map fun returned =>
          (returned.status, returned.steps.map (·.status))) =
      some (some (.running, [.failed, .pending])) := by
    decide +kernel
  obtain ⟨s, ran, statuses⟩ := Option.bind_eq_some_iff.mp statuses
  obtain ⟨t, later, statuses⟩ := Option.map_eq_some_iff.mp statuses
  obtain ⟨returned, read, statuses⟩ := Option.map_eq_some_iff.mp statuses
  refine ⟨s, t, returned, ran, later, to_option_some.mp read, fun committed => ?_⟩
  refine committed.whole ⟨congrArg Prod.fst statuses, .inr ?_⟩
  have failed : StepStatus.failed ∈ returned.steps.map (·.status) := by
    rw [show returned.steps.map (·.status) = [.failed, .pending] from congrArg Prod.snd statuses]
    exact List.mem_cons_self
  exact List.mem_map.mp failed

end Example

end Crashsafe
