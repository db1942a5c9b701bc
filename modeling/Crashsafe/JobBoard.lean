import Crashsafe.Recovery
import Crashsafe.WriteAhead
import Crashsafe.Library.Jobs
import Crashsafe.Library.Refinement

/- The two databases read together as jobs of tasks. Whatever the processes, the network and the
   tool do, the board of these jobs only ever makes a legal move. -/
namespace Crashsafe
open Rows Execution Refinement

def WorkflowRunStatus.outcome : WorkflowRunStatus → Jobs.Outcome
  | .running => .running
  | .completed => .completed
  | .failed => .failed

def idsOf (steps : List StepRow) : Set String := {id | ∃ row ∈ steps, row.id = id}

def completedOf (steps : List StepRow) : Set String :=
  {id | ∃ row ∈ steps, row.id = id ∧ row.status = .completed}

def performedOf (store : ToolStore) (runId : String) : Set String :=
  {id | ∃ e ∈ store.sideEffects, e.operationKey = operationKey runId id}

/-- A run as the job of its steps: what is done is in one database, what is performed in the
    other. -/
def jobWith (store : ToolStore) (runId : String) (v : RunView) (status : WorkflowRunStatus) :
    Jobs.Job String where
  tasks := idsOf v.steps
  needs id := {dep | dep ∈ dependencies v.dependencies id}
  performed := performedOf store runId
  done := completedOf v.steps
  outcome := status.outcome

def jobOf (store : ToolStore) (runId : String) (v : RunView) : Option (Jobs.Job String) :=
  v.runs.head?.map fun run => jobWith store runId v run.status

def boardOf (w : World) (runId : String) : Option (Jobs.Job String) :=
  jobOf w.tool.store runId (w.engine.db.view runId)

section Rows
variable {row : StepRow} {steps : List StepRow} {set : StepRow → StepRow}

theorem ids_updated {p : StepRow → Bool} (keeps : ∀ r, (set r).id = r.id) :
    idsOf (updateWhere p set steps) = idsOf steps := by
  have ids := map_updateWhere (g := StepRow.id) (p := p) (fun r _ => keeps r) steps
  ext id
  rw [idsOf, idsOf, Set.mem_ofPred_eq, Set.mem_ofPred_eq]
  exact List.mem_map.symm.trans ((iff_of_eq (congrArg (id ∈ ·) ids)).trans List.mem_map)

theorem completed_updated (distinct : (steps.map (·.id)).Nodup) (member : row ∈ steps)
    (open' : row.status ≠ .completed) (keeps : ∀ r, (set r).id = r.id) :
    completedOf (updateWhere (fun r => r.id = row.id) set steps) =
      if (set row).status = .completed then insert row.id (completedOf steps)
      else completedOf steps := by
  have only : ∀ r ∈ steps, r.id = row.id → r = row := fun r inside same =>
    List.inj_on_of_nodup_map distinct inside member same
  have other : ∀ id, id ∈ completedOf (updateWhere (fun r => r.id = row.id) set steps) ↔
      id ∈ completedOf steps ∨ (id = row.id ∧ (set row).status = .completed) := by
    intro id
    simp only [completedOf, Set.mem_ofPred_eq, mem_updateWhere]
    constructor
    · rintro ⟨_, ⟨old, inside, rfl⟩, named, completed⟩
      by_cases here : old.id = row.id
      · obtain rfl := only old inside here
        simp only [decide_true, ↓reduceIte] at named completed
        exact .inr ⟨named.symm.trans (keeps old), completed⟩
      · simp only [here, decide_false, Bool.false_eq_true, ↓reduceIte] at named completed
        exact .inl ⟨old, inside, named, completed⟩
    · rintro (⟨old, inside, rfl, completed⟩ | ⟨rfl, completed⟩)
      · have elsewhere : old.id ≠ row.id := fun here => open' (only old inside here ▸ completed)
        exact ⟨old, ⟨old, inside, by simp [elsewhere]⟩, rfl, completed⟩
      · exact ⟨set row, ⟨row, member, by simp⟩, keeps row, completed⟩
  ext id
  rw [other id]
  split <;> rename_i completed <;> simp [completed, or_comm]

end Rows

section Transitions
variable {runId : String} {v w : RunView} {row : StepRow} {now : Datetime} {write : Write}
  {store : ToolStore}

theorem job_leases (rest : w = { v with leases := w.leases }) :
    jobOf store runId w = jobOf store runId v := by
  rw [rest]
  rfl

theorem set_keeps_id (row other : StepRow) (now : Datetime) (write : Write) :
    (write.set row now other).id = other.id :=
  (immutable_fields (write_keeps_immutable row now write other)).2.1

/-- All is done when the completion of one more step leaves no row open. -/
theorem all_done_iff (distinct : (v.steps.map (·.id)).Nodup)
    (steps : w.steps = updateWhere (fun r => r.id = row.id) (write.set row now) v.steps) :
    idsOf v.steps ⊆ completedOf w.steps ↔ ∀ other ∈ w.steps, other.status = .completed := by
  have ids := map_updateWhere (g := StepRow.id) (p := fun r => r.id = row.id)
    (fun r _ => set_keeps_id row r now write) v.steps
  rw [← steps] at ids
  have same : idsOf v.steps = idsOf w.steps := by
    rw [steps, ids_updated fun r => set_keeps_id row r now write]
  rw [same]
  constructor
  · intro all other inside
    obtain ⟨done, member, named, completed⟩ := all ⟨other, inside, rfl⟩
    rwa [← List.inj_on_of_nodup_map (ids ▸ distinct) member inside named]
  · rintro all id ⟨other, inside, named⟩
    exact ⟨other, inside, named, all other inside⟩

/-- A committed transition of a running run is a move of its job, or nothing its job can see. -/
theorem move_job {run : WorkflowRunRow} (runs : v.runs = [run]) (running : run.status = .running)
    (distinct : (v.steps.map (·.id)).Nodup) (member : row ∈ v.steps)
    (move : RunMove runId v row now write w)
    (ready : row.status ≠ .pending → ∀ dep ∈ dependencies v.dependencies row.id,
      dep ∈ completedOf v.steps)
    (performed : ∀ output, write = .complete output → row.id ∈ performedOf store runId) :
    jobOf store runId w = jobOf store runId v ∨ ∃ job job', jobOf store runId v = some job ∧
      jobOf store runId w = some job' ∧ job.Move job' := by
  have permitted := move_permitted move
  have steps := move_steps move
  have depends := move_dependencies move
  have open' : row.status ≠ .completed := by
    intro completed
    cases write <;> simp [Write.Permits, completed, runnableStatuses] at permitted
  have notDone : row.id ∉ completedOf v.steps := by
    rintro ⟨other, inside, named, completed⟩
    rw [List.inj_on_of_nodup_map distinct inside member named] at completed
    exact open' completed
  have tasks : idsOf w.steps = idsOf v.steps := by
    rw [steps, ids_updated fun r => set_keeps_id row r now write]
  have done := completed_updated distinct member open' fun r => set_keeps_id row r now write
  rw [← steps] at done
  have all := all_done_iff distinct steps
  have before : jobOf store runId v = some (jobWith store runId v .running) := by
    simp [jobOf, runs, running]
  have after : ∀ status finished, w.runs.head?.map (·.status) = some status →
      completedOf w.steps = finished → jobOf store runId w =
        some { jobWith store runId v .running with done := finished, outcome := status.outcome } := by
    rintro status finished same rfl
    obtain ⟨last, head, rfl⟩ := Option.map_eq_some_iff.mp same
    simp only [jobOf, jobWith, head, tasks, depends, Option.map_some]
  cases move with
  | attempted ownerId fenceToken runnable _ paired =>
    left
    rw [before]
    exact after .running _ (by simp [RunView.setStep, RunView.append, runs, running])
      (done.trans (if_neg (by simp [Write.set, setAttempt])))
  | retried error nextAttemptAt active =>
    left
    rw [before]
    exact after .running _ (by simp [RunView.setStep, RunView.append, runs, running])
      (done.trans (if_neg (by simp [Write.set, setRetry])))
  | failed error active =>
    refine .inr ⟨_, _, before, after .failed _ ?_ (done.trans (if_neg (by simp [Write.set, setFailed]))),
      .fail row.id rfl ⟨row, member, rfl⟩ notDone (ready (by simp [active]))⟩
    simp [RunView.setRun, RunView.setStep, RunView.append, runs, setRunFailed]
  | completed output active w written more =>
    have same := done.trans (if_pos rfl)
    rw [same] at all
    have left' : ¬ idsOf v.steps ⊆ insert row.id (completedOf v.steps) := by
      rw [all]
      push Not
      exact more
    refine .inr ⟨_, _, before, after .running _ ?_ same,
      .complete row.id rfl (performed output rfl) notDone left'⟩
    rw [written]
    simp [RunView.setStep, RunView.append, runs, running]
  | finished output active w written whole =>
    have same := done.trans (if_pos rfl)
    have whole' : idsOf v.steps ⊆ insert row.id (completedOf v.steps) := same ▸ all.mpr whole
    refine .inr ⟨_, _, before, after .completed _ ?_ same,
      .finish row.id rfl (performed output rfl) notDone whole'⟩
    rw [written]
    simp [RunView.setRun, RunView.setStep, RunView.append, runs, setRunCompleted]

end Transitions

section Steps
variable {d : Deployment} {config : ToolConfig} {codec : ToolCodec} {w : World} {s : State} {a : Action}

/-- The key a process holds is that of the row it holds. -/
theorem attempt_key (traced : Traced w.engine) {p : Nat} {claim : ClaimedStep} {step : StepRecord}
    (held : (w.engine.pc p).attempt? = some (claim, step)) :
    step.operationKey = operationKey step.runId step.id := by
  obtain ⟨row, member, id, _, _, key, _⟩ := traced.attempts p claim step held
  change row.id = step.id at id
  change row.operationKey = step.operationKey at key
  rw [← key, (traced.keys step.runId row member).1, id]

/-- A transaction that passed the lease check moves the job of its run. -/
theorem committed_job (joined : Joined codec w) {db : Database} {runId stepId : String}
    {owner : Option String} {token : Option Int} {now leaseNow : Datetime} {write : Write} {row : StepRow}
    (committed : Committed w.engine.db runId stepId owner token now leaseNow write db row)
    (live : ∃ run ∈ (w.engine.db.view runId).runs, run.status = .running)
    (performed : ∀ output, write = .complete output → row.id ∈ performedOf w.tool.store runId)
    (written : s.db = db) :
    boardOf { w with engine := s } = boardOf w ∨
      Jobs.Move (boardOf w) (boardOf { w with engine := s }) := by
  have faithful := joined.traced.faithful
  have tidy := faithful.guarded.coherent.tidy runId
  subst written
  refine Jobs.move_at runId (fun other differs => ?_) ?_
  · simp only [boardOf, committed.others other differs]
  · obtain ⟨run, member, running⟩ := live
    have runs : (w.engine.db.view runId).runs = [run] := by
      obtain ⟨only, shape⟩ := List.length_eq_one_iff.mp
        (Nat.le_antisymm tidy.runs (List.length_pos_of_mem member))
      rw [shape, List.mem_singleton] at member
      rw [shape, member]
    exact move_job runs running tidy.distinct committed.member committed.move
      (started_dependencies faithful committed.member) performed

theorem created_job (joined : Joined codec w) {p : Nat} {runId : String}
    {definition : WorkflowDefinition} {toolKey : Option String} {now : Datetime} {db : Database}
    (was : w.engine.pc p = .creating runId definition toolKey now)
    (done : createWorkflowRun w.engine.db definition toolKey (d.defaultToolKey p) runId now = .ok db)
    (written : s.db = db) : Jobs.Move (boardOf w) (boardOf { w with engine := s }) := by
  have traced := joined.traced
  have absent := (traced.faithful.guarded.coherent.tidy runId).absent (create_absent done)
  obtain ⟨run, consistent, running⟩ := creation_consistent absent done
  obtain ⟨row, runs, _⟩ := consistent.row
  have status : row.status = .running := by
    rw [← consistent_status consistent (by simp [runs]), running]
  have pending : ∀ step ∈ (db.view runId).steps, step.status = .pending := fun step member =>
    (created_row absent done member).pending
  have nonempty : (idsOf (db.view runId).steps).Nonempty := by
    obtain ⟨_, _, created, sound⟩ := consistent_sound consistent
    obtain ⟨step, member⟩ := List.exists_mem_of_ne_nil _ (sound_run_nonempty sound)
    obtain ⟨row, inside, rfl⟩ := step_stored consistent member
    exact ⟨row.id, row, inside, rfl⟩
  subst written
  have here : boardOf { w with engine := s } runId =
      some (jobWith w.tool.store runId (s.db.view runId) .running) := by
    simp only [boardOf, jobOf, runs, List.head?_cons, Option.map_some, status]
  refine Jobs.submit_at runId (fun other differs => ?_) ?_ here ⟨nonempty, ?_, ?_, rfl⟩
  · simp only [boardOf, (create_ok absent done).2 other differs]
  · simp only [boardOf, jobOf, absent, RunView.empty, List.head?_nil, Option.map_none]
  · -- An effect of the new run would be an effect of a row that is not there.
    refine Set.eq_empty_iff_forall_notMem.mpr ?_
    rintro id ⟨e, member, key⟩
    obtain ⟨other, row, inside, named, _⟩ := effect_of_row joined member
    obtain ⟨rfl, _⟩ := operation_key_inj (traced.creating p runId (by rw [was]; rfl))
      (traced.keys other row inside).2 (key.symm.trans named)
    rw [absent] at inside
    cases inside
  · refine Set.eq_empty_iff_forall_notMem.mpr ?_
    rintro id ⟨row, inside, _, completed⟩
    rw [pending row inside] at completed
    cases completed

theorem board_engine (joined : Joined codec w) (effect : Effect d w.engine a s) :
    boardOf { w with engine := s } = boardOf w ∨
      Jobs.Move (boardOf w) (boardOf { w with engine := s }) := by
  have traced := joined.traced
  have faithful := traced.faithful
  have touched : ∀ runId owner token, Touched w.engine.db runId owner token s.db →
      boardOf { w with engine := s } = boardOf w := by
    intro runId owner token touched
    funext other
    by_cases here : other = runId
    · exact here ▸ job_leases touched.rest
    · simp only [boardOf, touched.others other here]
  cases effect with
  | quiet | sent | resolved | read => exact .inl rfl
  | created was done => exact .inr (created_job joined was done rfl)
  | granted was granted => exact .inl (funext fun runId => job_leases (granted_view granted runId))
  | released was same => exact .inl (touched _ _ _ same)
  | renewed held same renewal => exact .inl (touched _ _ _ renewal)
  | @recorded p claim now leaseNow db row was committed =>
    have sameRun := (faithful.guarded.coherent.claims p claim (by rw [was]; rfl)).2
    have pair := require_lease_ok committed.lease
    rw [(mem_ofKey.mp committed.member).2, sameRun] at pair
    refine committed_job joined committed ?_ (fun output same => by cases same) rfl
    rw [sameRun]
    exact faithful.running p claim (.inl (by rw [was]; rfl)) pair
  | @decided p claim step decision now leaseNow db row was committed =>
    have attempt : (w.engine.pc p).attempt? = some (claim, step) := by rw [was]; rfl
    have sameRun := faithful.guarded.coherent.attempts p claim step attempt
    have pair := require_lease_ok committed.lease
    rw [(mem_ofKey.mp committed.member).2, sameRun] at pair
    refine committed_job joined committed ?_ (fun output completes => ?_) rfl
    · rw [sameRun]
      exact faithful.running p claim (.inr ⟨step, attempt⟩) pair
    · cases decision with
      | retry | fail => cases completes
      | complete output' =>
        obtain ⟨e, member, key, _⟩ := joined.outputs p step output' (by rw [was]; rfl)
        exact ⟨e, member, by rw [key, attempt_key traced attempt, committed.named]⟩
  | @rebuilt p _ _ _ _ _ was done =>
    have unread := faithful.guarded.unread p
    rw [was] at unread
    cases unread

/-- The tool applies a request only for a step that is ready, and once. -/
theorem board_tool (joined : Joined codec w) {b : ToolAction} {tool : ToolState} {deliveries : List Nat}
    (effect : ToolEffect config codec w.tool b tool) :
    boardOf ⟨w.engine, tool, deliveries⟩ = boardOf w ∨
      Jobs.Move (boardOf w) (boardOf ⟨w.engine, tool, deliveries⟩) := by
  have traced := joined.traced
  rcases store_after effect with same | ⟨i, call, request, id, now, held, _, fresh, _, grown, _⟩
  · exact .inl (funext fun runId => by simp only [boardOf, jobOf, jobWith, performedOf, same])
  obtain ⟨runId, row, member, named, key, _, _, started⟩ := call_persisted joined held
  obtain ⟨run, present⟩ : ∃ run, (w.engine.db.view runId).runs = [run] := by
    obtain ⟨_, consistent⟩ := row_consistent traced.faithful member
    obtain ⟨run, rows, _⟩ := consistent.row
    exact ⟨run, rows⟩
  have performed : ∀ other, uuidText other = true → ∀ x, x ∈ performedOf tool.store other ↔
      x ∈ performedOf w.tool.store other ∨ (other = runId ∧ x = row.id) := by
    intro other named' x
    simp only [performedOf, Set.mem_ofPred_eq, grown, List.mem_append, List.mem_singleton]
    constructor
    · rintro ⟨e, old | rfl, same⟩
      · exact .inl ⟨e, old, same⟩
      · exact .inr (operation_key_inj named' named (same.symm.trans key))
    · rintro (⟨e, old, same⟩ | ⟨rfl, rfl⟩)
      · exact ⟨e, .inl old, same⟩
      · exact ⟨_, .inr rfl, key⟩
  refine Jobs.move_at runId (fun other differs => ?_) (.inr ?_)
  · -- A run without rows is no job; one with rows has a proper id.
    simp only [boardOf, jobOf]
    cases shape : (w.engine.db.view other).runs with
    | nil => rfl
    | cons r rest =>
      have same : performedOf tool.store other = performedOf w.tool.store other := by
        ext x
        rw [performed other (run_named traced (by simp [shape])) x]
        simp [differs]
      simp only [List.head?_cons, Option.map_some, jobWith, same]
  · have grown' : performedOf tool.store runId = insert row.id (performedOf w.tool.store runId) := by
      ext x
      rw [performed runId named x]
      simp [or_comm]
    have new : row.id ∉ performedOf w.tool.store runId := by
      rintro ⟨e, old, same⟩
      exact (fresh e old).2 (same.trans key.symm)
    refine ⟨jobWith w.tool.store runId (w.engine.db.view runId) run.status, _,
      by simp [boardOf, jobOf, present],
      by simp only [boardOf, jobOf, present, List.head?_cons, Option.map_some, jobWith, grown'],
      .perform row.id ⟨row, member, rfl⟩ new ?_⟩
    exact started_dependencies traced.faithful member started

end Steps

theorem boards_refine (d : Deployment) (config : ToolConfig) (codec : ToolCodec) :
    Refines (worldStep d config codec) honest (World.initial config) boardOf Jobs.Move := by
  intro w a w' reached may taken
  have joined := joined_reachable reached
  cases a with
  | engine a =>
    obtain ⟨s, stepped, rfl⟩ := Option.map_eq_some_iff.mp taken
    exact board_engine joined (step_effect stepped)
  | deliver request =>
    obtain ⟨r, _, taken⟩ := Option.bind_eq_some_iff.mp taken
    obtain ⟨tool, arrived, rfl⟩ := Option.map_eq_some_iff.mp taken
    exact board_tool joined (tool_step_effect arrived)
  | tool a =>
    simp only [worldStep] at taken
    split at taken
    · cases taken
    · obtain ⟨tool, moved, rfl⟩ := Option.map_eq_some_iff.mp taken
      exact board_tool joined (tool_step_effect moved)

theorem board_initial (config : ToolConfig) : boardOf (World.initial config) = fun _ => none := rfl

/-- From an empty board, every step of the whole system is one legal move of one job, or none. -/
theorem world_refines_jobs (d : Deployment) (config : ToolConfig) (codec : ToolCodec) :
    boardOf (World.initial config) = (fun _ => none) ∧
      Refines (worldStep d config codec) honest (World.initial config) boardOf Jobs.Move :=
  ⟨board_initial config, boards_refine d config codec⟩

section Outcomes
variable {d : Deployment} {config : ToolConfig} {codec : ToolCodec} {w w' : World} {runId : String}
  {run : WorkflowRun}

theorem board_sound (reached : Reachable (worldStep d config codec) honest (World.initial config) w) :
    Jobs.Sound (boardOf w) :=
  refines_invariant (P := Jobs.Sound) (boards_refine d config codec)
    (board_initial config ▸ Jobs.empty_sound) (fun _ _ sound moves => Jobs.board_move_sound sound moves)
    reached

theorem outcome_inj : Function.Injective WorkflowRunStatus.outcome := by
  intro a b same
  cases a <;> cases b <;> first | rfl | cases same

theorem board_status (w : World) (runId : String) :
    (boardOf w runId).map (·.outcome) = (statusOf w.engine.db runId).map (·.outcome) := by
  simp only [boardOf, jobOf, statusOf, Option.map_map]
  rfl

theorem board_later (reached : Reachable (worldStep d config codec) honest (World.initial config) w)
    (later : Reachable (worldStep d config codec) honest w w') {job : Jobs.Job String}
    (held : boardOf w runId = some job) : ∃ job', boardOf w' runId = some job' ∧ job.Later job' :=
  Jobs.board_later (board_sound reached) (refines_path (boards_refine d config codec) reached later) held

/-- How a run has ended is how it stays ended. -/
theorem status_lasts (reached : Reachable (worldStep d config codec) honest (World.initial config) w)
    (later : Reachable (worldStep d config codec) honest w w') {status : WorkflowRunStatus}
    (was : statusOf w.engine.db runId = some status) (ended : status ≠ .running) :
    statusOf w'.engine.db runId = some status := by
  have outcome := (board_status w runId).trans (congrArg (Option.map (·.outcome)) was)
  obtain ⟨job, held, same⟩ := Option.map_eq_some_iff.mp outcome
  obtain ⟨job', held', lasts⟩ := board_later reached later held
  have kept : job'.outcome = status.outcome := by
    cases status with
    | running => exact absurd rfl ended
    | completed => rw [lasts.completed same, same]
    | failed => exact (lasts.failed same).1.trans rfl
  have after := (board_status w' runId).symm.trans (congrArg (Option.map (·.outcome)) held')
  obtain ⟨status', there, same'⟩ := Option.map_eq_some_iff.mp after
  rw [there, outcome_inj (same'.trans kept)]

/-- A completed run has the effect of each of its steps, and no other. -/
theorem completed_performed
    (reached : Reachable (worldStep d config codec) honest (World.initial config) w)
    (completed : statusOf w.engine.db runId = some .completed) :
    (∀ row ∈ w.engine.db.stepsOf runId, row.status = .completed) ∧
      performedOf w.tool.store runId = idsOf (w.engine.db.stepsOf runId) := by
  have outcome := (board_status w runId).trans (congrArg (Option.map (·.outcome)) completed)
  obtain ⟨job, held, same⟩ := Option.map_eq_some_iff.mp outcome
  have sound := board_sound reached runId job held
  have all := sound.completed.mp same
  obtain ⟨run, _, rfl⟩ := Option.map_eq_some_iff.mp held
  refine ⟨fun row member => ?_, sound.performed.antisymm (all.trans sound.done)⟩
  obtain ⟨other, inside, named, done⟩ := all ⟨row, member, rfl⟩
  have tidy := (faithful_reachable (engine_reachable reached)).guarded.coherent.tidy runId
  rwa [← List.inj_on_of_nodup_map tidy.distinct inside member named]

/-- Every completed step of any run has its effect. -/
theorem done_performed
    (reached : Reachable (worldStep d config codec) honest (World.initial config) w)
    (runId : String) : completedOf (w.engine.db.stepsOf runId) ⊆ performedOf w.tool.store runId := by
  rintro id ⟨row, member, rfl, completed⟩
  obtain ⟨_, _, _, _, e, inside, key, _⟩ :=
    performed_completed (joined_reachable reached) member completed
  exact ⟨e, inside, key⟩

end Outcomes

end Crashsafe
