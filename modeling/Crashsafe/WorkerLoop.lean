import Crashsafe.JobBoard
import Crashsafe.Recovery

/- The loop a worker process runs around run_once, among all the others, and what its exit
   status says about the run it was told to finish. -/
namespace Crashsafe
open Rows Execution Refinement

/- `worker.py` without arguments, with `--once` and with `--until-terminal`. -/
inductive WorkerGoal where
  | forever
  | once
  | untilTerminal (runId : String)
  deriving DecidableEq

/- Where the loop stands; `entering` is past its condition and not in run_once yet. -/
inductive WorkerPhase where
  | polling
  | looking (runId : String)
  | entering
  | working
  | exited (code : Nat)
  | killed
  deriving DecidableEq

structure WorkerState where
  world : World
  phase : WorkerPhase
  draining : Bool

def WorkerState.initial (config : ToolConfig) : WorkerState := ⟨World.initial config, .polling, false⟩

/- `late` is what the worker's own clock says of its deadline, `raised` whether run_once raised. -/
inductive WorkerAction where
  | requestStop
  | poll (late : Bool)
  | look
  | enter (now : Datetime)
  | within (a : WorldAction)
  | leave (raised : Bool)
  | kill

/- The process whose step it is; a heartbeat belongs to none. -/
def Action.process? : Action → Option Nat
  | .readHeartbeat .. | .renewHeartbeat .. => none
  | .beginCreate p .. | .commitCreate p | .beginClaim p _ | .commitClaim p _ | .beginRecord p _
  | .commitRecord p _ | .send p | .resolve p _ _ | .beginDecision p _ | .commitDecision p _
  | .abandon p | .beginRelease p _ | .commitRelease p | .crash p | .readHistory p _ | .readCreation p
  | .commitRebuild p => some p

/- The steps of run_once after its first. -/
def Action.inRunOnce (p : Nat) : Action → Bool
  | .commitClaim q _ | .beginRecord q _ | .commitRecord q _ | .send q | .resolve q _ _
  | .beginDecision q _ | .commitDecision q _ | .abandon q | .beginRelease q _ | .commitRelease q => q = p
  | _ => false

/- What this process does in no other way than through its own loop. -/
def Action.ofLoop (p : Nat) : Action → Bool
  | .beginCreate q .. | .commitCreate q | .beginClaim q _ | .crash q | .readHistory q _
  | .readCreation q | .commitRebuild q => q = p
  | _ => false

def Pc.isIdle : Pc → Bool
  | .idle => true
  | _ => false

/-- The process may take the step where its loop stands; the others may always. -/
def mayTake (p : Nat) (phase : WorkerPhase) : WorldAction → Bool
  | .engine a => !a.ofLoop p && (!a.inRunOnce p || phase = .working)
  | _ => true

def onPoll (goal : WorkerGoal) (draining late : Bool) : WorkerPhase :=
  match goal with
  | .once => .entering
  | .forever => if draining then .exited 0 else .entering
  | .untilTerminal runId => if draining || late then .exited 3 else .looking runId

def onLook (db : Database) (runId : String) : WorkerPhase :=
  match getWorkflowRun db runId with
  | .error _ => .exited 4
  | .ok run =>
    match run.status with
    | .completed => .exited 0
    | .failed => .exited 2
    | .running => .entering

/-- Worker.run_forever, Worker.run_until_terminal and what main makes of how they end. -/
def workerStep (d : Deployment) (config : ToolConfig) (codec : ToolCodec) (p : Nat) (goal : WorkerGoal)
    (s : WorkerState) : WorkerAction → Option WorkerState
  | .requestStop => some { s with draining := true }
  | .poll late =>
    match s.phase with
    | .polling => some { s with phase := onPoll goal s.draining late }
    | _ => none
  | .look =>
    match s.phase with
    | .looking runId => some { s with phase := onLook s.world.engine.db runId }
    | _ => none
  | .enter now =>
    match s.phase with
    | .entering => (worldStep d config codec s.world (.engine (.beginClaim p now))).map fun world =>
        { s with world := world, phase := .working }
    | _ => none
  | .within a =>
    if mayTake p s.phase a then
      (worldStep d config codec s.world a).map fun world => { s with world := world }
    else none
  | .leave raised =>
    match s.phase with
    | .working =>
      if (s.world.engine.pc p).isIdle then
        some { s with
          phase := if raised then .exited 1 else if goal = .once then .exited 0 else .polling }
      else none
    | _ => none
  | .kill => (worldStep d config codec s.world (.engine (.crash p))).map fun world =>
      { s with world := world, phase := .killed }

/-- The rest of the world stays honest. -/
def honestWorker (s : WorkerState) : WorkerAction → Prop
  | .within a => honest s.world a
  | _ => True

instance (s : WorkerState) (a : WorkerAction) : Decidable (honestWorker s a) := by
  unfold honestWorker
  split <;> infer_instance

section World
variable {d : Deployment} {config : ToolConfig} {codec : ToolCodec} {p : Nat} {goal : WorkerGoal}
  {s t : WorkerState} {a : WorkerAction}

/-- What a step of the loop does to the world is nothing, or an honest step of the world. -/
theorem worker_step_world (may : honestWorker s a)
    (taken : workerStep d config codec p goal s a = some t) :
    t.world = s.world ∨ ∃ b, honest s.world b ∧ worldStep d config codec s.world b = some t.world := by
  cases a with
  | requestStop =>
    cases taken
    exact .inl rfl
  | poll late =>
    simp only [workerStep] at taken
    split at taken
    · cases taken
      exact .inl rfl
    · cases taken
  | look =>
    simp only [workerStep] at taken
    split at taken
    · cases taken
      exact .inl rfl
    · cases taken
  | enter now =>
    simp only [workerStep] at taken
    split at taken
    · obtain ⟨world, moved, rfl⟩ := Option.map_eq_some_iff.mp taken
      exact .inr ⟨.engine (.beginClaim p now), trivial, moved⟩
    · cases taken
  | within b =>
    simp only [workerStep] at taken
    split at taken
    · obtain ⟨world, moved, rfl⟩ := Option.map_eq_some_iff.mp taken
      exact .inr ⟨b, may, moved⟩
    · cases taken
  | leave raised =>
    simp only [workerStep] at taken
    split at taken
    · split at taken
      · cases taken
        exact .inl rfl
      · cases taken
    · cases taken
  | kill =>
    simp only [workerStep] at taken
    obtain ⟨world, moved, rfl⟩ := Option.map_eq_some_iff.mp taken
    exact .inr ⟨.engine (.crash p), trivial, moved⟩

theorem worker_world_reachable
    (reached : Reachable (workerStep d config codec p goal) honestWorker (WorkerState.initial config) s) :
    Reachable (worldStep d config codec) honest (World.initial config) s.world :=
  reachable_project WorkerState.world (fun _ _ _ _ may taken => worker_step_world may taken) reached

end World

section Parked
variable {d : Deployment} {s t : State} {a : Action} {p q : Nat}

/-- A step moves its own process, if it moves any. -/
theorem step_pc (taken : step d s a = some t) :
    t.pc = s.pc ∨ ∃ q pc, a.process? = some q ∧ t.pc = Function.update s.pc q pc := by
  cases a with
  | readHeartbeat i now =>
    obtain ⟨h, _, rfl⟩ := Option.map_eq_some_iff.mp taken
    exact .inl rfl
  | renewHeartbeat i =>
    simp only [step] at taken
    split at taken
    · split at taken <;> cases taken <;> exact .inl rfl
    · cases taken
  | commitClaim q choice =>
    simp only [step] at taken
    split at taken
    · split at taken
      · cases taken
        exact .inr ⟨q, _, rfl, rfl⟩
      · cases taken
        exact .inr ⟨q, _, rfl, rfl⟩
      · obtain ⟨_, _, rfl⟩ := Option.map_eq_some_iff.mp taken
        exact .inr ⟨q, _, rfl, rfl⟩
    · cases taken
  | readHistory q runId =>
    simp only [step] at taken
    split at taken
    · split at taken
      · cases taken
        exact .inl rfl
      · split at taken <;> cases taken
        · exact .inl rfl
        · exact .inr ⟨q, _, rfl, rfl⟩
    · cases taken
  | _ q =>
    simp only [step] at taken
    repeat' split at taken
    all_goals cases taken
    all_goals exact .inr ⟨q, _, rfl, rfl⟩

/-- A step that is not this process's leaves it where it stands. -/
theorem elsewhere_pc (taken : step d s a = some t) (loop : a.ofLoop p = false)
    (inside : a.inRunOnce p = false) : t.pc p = s.pc p := by
  rcases step_pc taken with same | ⟨q, pc, acts, moved⟩
  · rw [same]
  · have differs : p ≠ q := by
      rintro rfl
      cases a <;> simp_all [Action.ofLoop, Action.inRunOnce, Action.process?]
    rw [moved, Function.update_of_ne differs]

theorem is_idle {pc : Pc} (h : pc.isIdle = true) : pc = .idle := by
  cases pc <;> simp_all [Pc.isIdle]

end Parked

section Exits
variable {d : Deployment} {config : ToolConfig} {codec : ToolCodec} {p : Nat} {goal : WorkerGoal}
  {s t : WorkerState} {a : WorkerAction}

/- What the loop guarantees at every point: outside run_once the process holds nothing, and the
   status it exits with is that of its run. -/
structure WorkerTells (p : Nat) (goal : WorkerGoal) (s : WorkerState) : Prop where
  parked : s.phase ≠ .working → s.world.engine.pc p = .idle
  watched : ∀ runId, s.phase = .looking runId → goal = .untilTerminal runId
  completed : ∀ runId, goal = .untilTerminal runId → s.phase = .exited 0 →
    statusOf s.world.engine.db runId = some .completed
  failed : ∀ runId, goal = .untilTerminal runId → s.phase = .exited 2 →
    statusOf s.world.engine.db runId = some .failed

/-- A move of the world that this loop does not make itself. -/
theorem tells_world {world : World} (tells : WorkerTells p goal s)
    (reached : Reachable (worldStep d config codec) honest (World.initial config) s.world)
    (later : Reachable (worldStep d config codec) honest s.world world)
    (stays : s.phase ≠ .working → world.engine.pc p = .idle) :
    WorkerTells p goal { s with world := world } :=
  ⟨stays, tells.watched,
    fun runId named exits => status_lasts reached later (tells.completed runId named exits) (by simp),
    fun runId named exits => status_lasts reached later (tells.failed runId named exits) (by simp)⟩

theorem tells_within {b : WorldAction} {world : World} (tells : WorkerTells p goal s)
    (may : mayTake p s.phase b = true) (moved : worldStep d config codec s.world b = some world) :
    s.phase ≠ .working → world.engine.pc p = .idle := by
  intro outside
  have idle := tells.parked outside
  cases b with
  | engine a =>
    obtain ⟨engine, stepped, rfl⟩ := Option.map_eq_some_iff.mp moved
    simp only [mayTake, outside, decide_false, Bool.or_false, Bool.and_eq_true, Bool.not_eq_true'] at may
    exact (elsewhere_pc stepped may.1 may.2).trans idle
  | deliver request =>
    obtain ⟨r, _, moved⟩ := Option.bind_eq_some_iff.mp moved
    obtain ⟨tool, _, rfl⟩ := Option.map_eq_some_iff.mp moved
    exact idle
  | tool a =>
    simp only [worldStep] at moved
    split at moved
    · cases moved
    · obtain ⟨tool, _, rfl⟩ := Option.map_eq_some_iff.mp moved
      exact idle

theorem tells_poll (tells : WorkerTells p goal s) (was : s.phase = .polling) (late : Bool) :
    WorkerTells p goal { s with phase := onPoll goal s.draining late } := by
  have idle := tells.parked (by simp [was])
  refine ⟨fun _ => idle, ?_, ?_, ?_⟩
  all_goals
    intro runId
    cases goal <;> simp only [onPoll] <;> intros <;> (try split at *) <;> simp_all

/-- The exit status a look at the run decides on. -/
theorem look_ends {db : Database} {runId : String} {code : Nat} (ends : onLook db runId = .exited code) :
    (code = 0 → statusOf db runId = some .completed) ∧ (code = 2 → statusOf db runId = some .failed) := by
  unfold onLook at ends
  split at ends
  · cases ends
    simp
  · rename_i run read
    split at ends
    · rename_i completed
      cases ends
      exact ⟨fun _ => status_read.mpr ⟨run, read, completed⟩, by simp⟩
    · rename_i failed
      cases ends
      exact ⟨by simp, fun _ => status_read.mpr ⟨run, read, failed⟩⟩
    · cases ends

theorem look_once {db : Database} {runId runId' : String} : onLook db runId ≠ .looking runId' := by
  unfold onLook
  split
  · simp
  · split <;> simp

theorem tells_look {runId : String} (tells : WorkerTells p goal s) (was : s.phase = .looking runId) :
    WorkerTells p goal { s with phase := onLook s.world.engine.db runId } := by
  have idle := tells.parked (by simp [was])
  have named := tells.watched runId was
  have same : ∀ other, goal = .untilTerminal other → other = runId := by
    intro other other'
    rw [named] at other'
    exact (WorkerGoal.untilTerminal.inj other').symm
  refine ⟨fun _ => idle, fun other looks => absurd looks look_once, ?_, ?_⟩
  · intro other named exits
    obtain rfl := same other named
    exact (look_ends exits).1 rfl
  · intro other named exits
    obtain rfl := same other named
    exact (look_ends exits).2 rfl

theorem tells_step
    (reached : Reachable (workerStep d config codec p goal) honestWorker (WorkerState.initial config) s)
    (tells : WorkerTells p goal s) (may : honestWorker s a)
    (taken : workerStep d config codec p goal s a = some t) : WorkerTells p goal t := by
  have reached' := worker_world_reachable reached
  cases a with
  | requestStop =>
    cases taken
    exact ⟨tells.parked, tells.watched, tells.completed, tells.failed⟩
  | poll late =>
    simp only [workerStep] at taken
    split at taken
    · rename_i was
      cases taken
      exact tells_poll tells was late
    · cases taken
  | look =>
    simp only [workerStep] at taken
    split at taken
    · rename_i was
      cases taken
      exact tells_look tells was
    · cases taken
  | enter now =>
    simp only [workerStep] at taken
    split at taken
    · obtain ⟨world, moved, rfl⟩ := Option.map_eq_some_iff.mp taken
      constructor <;> simp
    · cases taken
  | within b =>
    simp only [workerStep] at taken
    split at taken
    · rename_i allowed
      obtain ⟨world, moved, rfl⟩ := Option.map_eq_some_iff.mp taken
      exact tells_world tells reached' (reachable_step may moved) (tells_within tells allowed moved)
    · cases taken
  | leave raised =>
    simp only [workerStep] at taken
    split at taken
    · split at taken
      · rename_i idle
        cases taken
        refine ⟨fun _ => is_idle idle, ?_, ?_, ?_⟩
        all_goals
          intro runId
          cases raised <;> simp only [↓reduceIte, Bool.false_eq_true] <;> try split
          all_goals simp_all
      · cases taken
    · cases taken
  | kill =>
    simp only [workerStep, worldStep, step, Option.map_some, Option.some.injEq] at taken
    subst taken
    exact ⟨fun _ => goto_same, by simp, by simp, by simp⟩

theorem tells_reachable
    (reached : Reachable (workerStep d config codec p goal) honestWorker (WorkerState.initial config) s) :
    WorkerTells p goal s := by
  have start : WorkerTells p goal (WorkerState.initial config) :=
    ⟨fun _ => rfl, by simp [WorkerState.initial], by simp [WorkerState.initial],
      by simp [WorkerState.initial]⟩
  exact reachable_invariant start (fun _ _ _ before tells may taken => tells_step before tells may taken)
    reached

end Exits

section Draining
variable {d : Deployment} {config : ToolConfig} {codec : ToolCodec} {p : Nat} {goal : WorkerGoal}
  {s t : WorkerState} {a : WorkerAction}

def WorkerAction.enters : WorkerAction → Bool
  | .enter _ => true
  | _ => false

/- How often a draining worker may still enter run_once. -/
def WorkerPhase.entriesLeft (goal : WorkerGoal) : WorkerPhase → Nat
  | .looking _ | .entering => 1
  | .polling => if goal = .once then 1 else 0
  | _ => 0

theorem look_entries {db : Database} {runId : String} : (onLook db runId).entriesLeft goal ≤ 1 := by
  unfold onLook
  split
  · simp [WorkerPhase.entriesLeft]
  · split <;> simp [WorkerPhase.entriesLeft]

theorem draining_step (draining : s.draining = true)
    (taken : workerStep d config codec p goal s a = some t) :
    t.draining = true ∧ t.phase.entriesLeft goal + (if a.enters then 1 else 0) ≤
      s.phase.entriesLeft goal := by
  cases a with
  | requestStop =>
    cases taken
    exact ⟨rfl, by simp [WorkerAction.enters]⟩
  | poll late =>
    simp only [workerStep] at taken
    split at taken
    · rename_i was
      cases taken
      refine ⟨draining, ?_⟩
      cases goal <;> simp [onPoll, was, draining, WorkerPhase.entriesLeft, WorkerAction.enters]
    · cases taken
  | look =>
    simp only [workerStep] at taken
    split at taken
    · rename_i runId was
      cases taken
      refine ⟨draining, ?_⟩
      rw [was]
      exact look_entries
    · cases taken
  | enter now =>
    simp only [workerStep] at taken
    split at taken
    · rename_i was
      obtain ⟨world, _, rfl⟩ := Option.map_eq_some_iff.mp taken
      exact ⟨draining, by simp [was, WorkerPhase.entriesLeft, WorkerAction.enters]⟩
    · cases taken
  | within b =>
    simp only [workerStep] at taken
    split at taken
    · obtain ⟨world, _, rfl⟩ := Option.map_eq_some_iff.mp taken
      exact ⟨draining, by simp [WorkerAction.enters]⟩
    · cases taken
  | leave raised =>
    simp only [workerStep] at taken
    split at taken
    · split at taken
      · cases taken
        refine ⟨draining, ?_⟩
        cases raised <;> simp only [↓reduceIte, Bool.false_eq_true] <;> try split
        all_goals simp_all [WorkerPhase.entriesLeft, WorkerAction.enters]
      · cases taken
    · cases taken
  | kill =>
    simp only [workerStep] at taken
    obtain ⟨world, _, rfl⟩ := Option.map_eq_some_iff.mp taken
    exact ⟨draining, by simp [WorkerPhase.entriesLeft, WorkerAction.enters]⟩

theorem drains {actions : List WorkerAction} (draining : s.draining = true)
    (ran : runWhere (workerStep d config codec p goal) honestWorker s actions = some t) :
    t.phase.entriesLeft goal + actions.countP WorkerAction.enters ≤ s.phase.entriesLeft goal :=
  runWhere_countP (R := fun s => s.draining = true) (fun s => s.phase.entriesLeft goal)
    (fun _ _ _ draining _ taken => draining_step draining taken) actions draining ran

end Draining

/-- The run is reported completed, and the tool has done each of its steps and nothing else. -/
def RunCompleted (w : World) (runId : String) : Prop :=
  ∃ run, getWorkflowRun w.engine.db runId = .ok run ∧ run.status = .completed ∧
    (∀ step ∈ run.steps, step.status = .completed) ∧
    ∀ id, (∃ e ∈ w.tool.store.sideEffects, e.operationKey = operationKey runId id) ↔
      ∃ step ∈ run.steps, step.id = id

/-- The run is reported failed, and the tool has done whatever step it reports completed. -/
def RunFailed (w : World) (runId : String) : Prop :=
  ∃ run, getWorkflowRun w.engine.db runId = .ok run ∧ run.status = .failed ∧
    ∀ step ∈ run.steps, step.status = .completed →
      ∃ e ∈ w.tool.store.sideEffects, e.operationKey = operationKey runId step.id

/-- A worker's exit status is true of both databases for as long as they exist; it leaves
    run_once with nothing in hand; and asked to stop, it enters run_once at most once more. -/
structure WorkerHonest (d : Deployment) (config : ToolConfig) (codec : ToolCodec) (p : Nat)
    (goal : WorkerGoal) (s : WorkerState) : Prop where
  parked : s.phase ≠ .working → s.world.engine.pc p = .idle
  completed : ∀ runId, goal = .untilTerminal runId → s.phase = .exited 0 → RunCompleted s.world runId
  failed : ∀ runId, goal = .untilTerminal runId → s.phase = .exited 2 → RunFailed s.world runId
  drains : s.draining = true → ∀ actions t,
    runWhere (workerStep d config codec p goal) honestWorker s actions = some t →
      actions.countP WorkerAction.enters ≤ if s.phase = .polling ∧ goal ≠ .once then 0 else 1

section Statuses
variable {d : Deployment} {config : ToolConfig} {codec : ToolCodec} {w : World} {runId : String}

theorem read_step {run : WorkflowRun} (got : getWorkflowRun w.engine.db runId = .ok run)
    {step : StepRecord} (member : step ∈ run.steps) :
    ∃ row ∈ w.engine.db.stepsOf runId, row.id = step.id ∧ row.status = step.status := by
  simp only [getWorkflowRun] at got
  split at got
  · cases got
  · cases got
    obtain ⟨row, inside, rfl⟩ := List.mem_map.mp member
    exact ⟨row, mem_orderBy.mp inside, rfl, rfl⟩

theorem row_of_read {run : WorkflowRun} (got : getWorkflowRun w.engine.db runId = .ok run)
    {row : StepRow} (member : row ∈ w.engine.db.stepsOf runId) : ∃ step ∈ run.steps, step.id = row.id := by
  simp only [getWorkflowRun] at got
  split at got
  · cases got
  · cases got
    exact ⟨_, List.mem_map_of_mem (mem_orderBy.mpr member), rfl⟩

theorem run_completed (reached : Reachable (worldStep d config codec) honest (World.initial config) w)
    (status : statusOf w.engine.db runId = some .completed) : RunCompleted w runId := by
  obtain ⟨run, got, completed⟩ := status_read.mp status
  obtain ⟨all, performed⟩ := completed_performed reached status
  refine ⟨run, got, completed, fun step member => ?_, fun id => ?_⟩
  · obtain ⟨row, inside, _, same⟩ := read_step got member
    rw [← same, all row inside]
  · change id ∈ performedOf w.tool.store runId ↔ _
    rw [performed]
    constructor
    · rintro ⟨row, inside, rfl⟩
      exact row_of_read got inside
    · rintro ⟨step, member, rfl⟩
      obtain ⟨row, inside, named, _⟩ := read_step got member
      exact ⟨row, inside, named⟩

theorem run_failed (reached : Reachable (worldStep d config codec) honest (World.initial config) w)
    (status : statusOf w.engine.db runId = some .failed) : RunFailed w runId := by
  obtain ⟨run, got, failed⟩ := status_read.mp status
  refine ⟨run, got, failed, fun step member completed => ?_⟩
  obtain ⟨row, inside, named, same⟩ := read_step got member
  exact done_performed reached runId ⟨row, inside, named, same.trans completed⟩

end Statuses

theorem worker_exits_honest {d : Deployment} {config : ToolConfig} {codec : ToolCodec} {p : Nat}
    {goal : WorkerGoal} {s : WorkerState}
    (reached : Reachable (workerStep d config codec p goal) honestWorker (WorkerState.initial config) s) :
    WorkerHonest d config codec p goal s := by
  have tells := tells_reachable reached
  have world := worker_world_reachable reached
  refine ⟨tells.parked, fun runId named exits => run_completed world (tells.completed runId named exits),
    fun runId named exits => run_failed world (tells.failed runId named exits), ?_⟩
  intro draining actions t ran
  have left := drains draining ran
  split
  · rename_i idle
    simp only [idle, WorkerPhase.entriesLeft, if_false] at left
    omega
  · have most : s.phase.entriesLeft goal ≤ 1 := by
      cases s.phase <;> simp only [WorkerPhase.entriesLeft] <;> first | omega | (split <;> omega)
    omega

section Example

/- A worker told to finish the run does its two steps, and is asked to stop before its last look. -/
def finishedRun : List WorkerAction :=
  [.within (.engine (.beginCreate 0 "a1" onboarding none 1)), .within (.engine (.commitCreate 0)),
    .poll false, .look, .enter 2, .within (.engine (.commitClaim 1 0)),
    .within (.engine (.beginRecord 1 3)), .within (.engine (.commitRecord 1 4)),
    .within (.engine (.send 1)), .within (.deliver 0), .within (.tool (.find 0)),
    .within (.tool (.inject 0 false)), .within (.tool (.apply 0 "0123456789abcdef" 5)),
    .within (.tool (.answer 0)),
    .within (.engine (.resolve 1 (.result ⟨.charge, "charge_0123456789abcdef", false⟩) 6)),
    .within (.engine (.beginDecision 1 7)), .within (.engine (.commitDecision 1 8)),
    .within (.engine (.beginRelease 1 9)), .within (.engine (.commitRelease 1)), .leave false,
    .poll false, .look, .enter 10, .within (.engine (.commitClaim 1 0)),
    .within (.engine (.beginRecord 1 11)), .within (.engine (.commitRecord 1 12)),
    .within (.engine (.send 1)), .within (.deliver 1), .within (.tool (.find 1)),
    .within (.tool (.inject 1 false)), .within (.tool (.apply 1 "00112233445566aa" 13)),
    .within (.tool (.answer 1)),
    .within (.engine (.resolve 1 (.result ⟨.provision, "provision_00112233445566aa", false⟩) 14)),
    .within (.engine (.beginDecision 1 15)), .within (.engine (.commitDecision 1 16)),
    .within (.engine (.beginRelease 1 17)), .within (.engine (.commitRelease 1)), .leave false,
    .poll false, .requestStop, .look]

theorem finished_run_honest :
    ∃ s, runWhere (workerStep sharedWorker quietTool modelCodec 1 (.untilTerminal "a1")) honestWorker
        (WorkerState.initial quietTool) finishedRun = some s ∧ s.phase = .exited 0 ∧ s.draining = true ∧
      WorkerHonest sharedWorker quietTool modelCodec 1 (.untilTerminal "a1") s := by
  have facts : (runWhere (workerStep sharedWorker quietTool modelCodec 1 (.untilTerminal "a1"))
      honestWorker (WorkerState.initial quietTool) finishedRun).map (fun s =>
        (s.phase, s.draining)) = some (.exited 0, true) := by
    decide +kernel
  obtain ⟨s, ran, facts⟩ := Option.map_eq_some_iff.mp facts
  simp only [Prod.mk.injEq] at facts
  exact ⟨s, ran, facts.1, facts.2, worker_exits_honest (reachable_runWhere finishedRun .start ran)⟩

end Example

end Crashsafe
