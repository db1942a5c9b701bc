import Crashsafe.Observability
import Crashsafe.TornReads
import Crashsafe.Library.Queries

/- The HTTP boundary. Its handlers run no step: they read the store, each SELECT at a moment of
   its own, and translate what it raises. -/
namespace Crashsafe
open Rows Replay Execution Queries

/- FastAPI answers a rejected parameter with 422, Starlette an uncaught exception with 500. -/
inductive Answer (α : Type) where
  | success (statusCode : Nat) (body : α)
  | httpException (statusCode : Nat) (detail : String)
  | unprocessable
  | serverError
  deriving DecidableEq, Repr

/-- The `except WorkflowRunNotFoundError` of a handler. -/
def Answer.orNotFound {α : Type} : Except StorageError α → Answer α
  | .ok body => .success 200 body
  | .error (.workflowRunNotFound _) => .httpException 404 "workflow run not found"
  | .error _ => .serverError

section Listing

/- SQLite may visit the rows of a table in any order, and ORDER BY leaves equals as it visits
   them. -/
def newestFirst (visit : List WorkflowRunRow → List WorkflowRunRow) (db : Database) (limit : Nat) :
    List WorkflowRunRow :=
  (orderBy (fun row => - row.createdAt) (visit db.workflowRuns)).take limit

/-- The runs one after another, three SELECTs each. -/
def readRuns (sees : Nat → Database) : List String → Except StorageError (List WorkflowRun)
  | [] => .ok []
  | runId :: rest => do
    let run ← getWorkflowRunAcross (sees 0) (sees 1) (sees 2) runId
    let runs ← readRuns (fun k => sees (k + 3)) rest
    return run :: runs

/-- `list_workflow_runs`; `sees k` is what its SELECT number `k` sees. -/
def listWorkflowRuns (visit : List WorkflowRunRow → List WorkflowRunRow) (sees : Nat → Database)
    (limit : Nat) : Except StorageError (List WorkflowRun) :=
  readRuns (fun k => sees (k + 1)) ((newestFirst visit (sees 0) limit).map (·.runId))

end Listing

namespace Api

/- What the creating transaction raises no handler catches, nor what the read after it does. -/
def createWorkflowRun (committed : Except StorageError Database) (first second third : Database)
    (runId : String) : Answer WorkflowRun :=
  match committed with
  | .error _ => .serverError
  | .ok _ =>
    match getWorkflowRunAcross first second third runId with
    | .ok run => .success 201 run
    | .error _ => .serverError

def getWorkflowRun (first second third : Database) (runId : String) : Answer WorkflowRun :=
  .orNotFound (getWorkflowRunAcross first second third runId)

def listWorkflowRuns (visit : List WorkflowRunRow → List WorkflowRunRow) (sees : Nat → Database)
    (limit : Option Int) : Answer (List WorkflowRun) :=
  let limit := limit.getD 100
  if 1 ≤ limit ∧ limit ≤ 500 then
    match Crashsafe.listWorkflowRuns visit sees limit.toNat with
    | .ok runs => .success 200 runs
    | .error _ => .serverError
  else .unprocessable

def listWorkflowRunEvents (db : Database) (runId : String) : Answer (List WorkflowRunEvent) :=
  .orNotFound (listEvents db runId)

def workflowRunTimeline (str : Json → String) (db : Database) (runId : String) :
    Answer WorkflowRunTimeline :=
  match Answer.orNotFound (listEvents db runId) with
  | .success _ events =>
    match buildTimeline str events with
    | .ok timeline => .success 200 timeline
    | .error _ => .serverError
  | .httpException statusCode detail => .httpException statusCode detail
  | .unprocessable => .unprocessable
  | .serverError => .serverError

end Api

section Birth
variable {d : Deployment} {allowed : State → Action → Prop} {s t : State} {a : Action}
  {runId : String} {events : List WorkflowRunEvent} {run : WorkflowRun} {last : Int}

/- When the run was created, by its history. -/
def RunView.bornAt (v : RunView) : Option Datetime := v.events.head?.map (·.occurredAt)

/-- A run's row carries the time of the run's first event. -/
def Born (v : RunView) : Prop := ∀ row ∈ v.runs, v.bornAt = some row.createdAt

theorem fold_created_at (folded : foldHistory runId events = .ok (some run, last)) :
    events.head?.map (·.occurredAt) = some run.createdAt := by
  refine replay_invariant (P := fun (seen : List WorkflowRunEvent) (state : Option WorkflowRun × Int) =>
    seen.head?.map (·.occurredAt) = state.1.map (·.createdAt)) rfl ?_ folded
  intro seen e before after born taken
  obtain ⟨_, _, _, next, same, move⟩ := reduce_event_ok taken
  rw [same, List.head?_append]
  rcases move with ⟨created, none, _, rfl⟩ | ⟨run, current, _, advance⟩
  · rw [none, Option.map_none, Option.map_eq_none_iff] at born
    rw [born]
    rfl
  · rw [current] at born
    obtain ⟨first, head, time⟩ := Option.map_eq_some_iff.mp born
    have kept : next.createdAt = run.createdAt := by cases advance <;> rfl
    rw [head, Option.some_or, Option.map_some, Option.map_some, time, kept]

theorem head_grown {seen grown : List WorkflowRunEvent} {e : WorkflowRunEvent}
    (head : seen.head? = some e) (begins : seen <+: grown) : grown.head? = some e := by
  obtain ⟨more, rfl⟩ := begins
  rw [List.head?_append, head, Option.some_or]

theorem born_at_grown {v w : RunView} (begun : v.events ≠ []) (grown : v.events <+: w.events) :
    w.bornAt = v.bornAt := by
  have head := List.head?_eq_some_head begun
  rw [RunView.bornAt, RunView.bornAt, head_grown head grown, head]

theorem born_move {v w : RunView} {row : StepRow} {now : Datetime} {write : Write} (born : Born v)
    (move : RunMove runId v row now write w) (begun : v.events ≠ []) : Born w := by
  obtain ⟨first, rest, grown⟩ := move_extends_events move
  have same : w.bornAt = v.bornAt := born_at_grown begun ⟨first :: rest, grown.symm⟩
  intro row member
  rw [same]
  rcases move_runs move with runs | runs | runs
  · exact born row (runs ▸ member)
  · rw [runs] at member
    obtain ⟨old, inside, rfl⟩ := List.mem_map.mp member
    exact born old inside
  · rw [runs] at member
    obtain ⟨old, inside, rfl⟩ := List.mem_map.mp member
    exact born old inside

theorem born_effect (coherent : Coherent s) (born : ∀ runId, Born (s.db.view runId))
    (effect : Effect d s a t) (runId : String) : Born (t.db.view runId) := by
  have before := born runId
  cases effect_view coherent effect runId with
  | same view => exact view ▸ before
  | created definition toolKey defaultToolKey now absent done =>
    rw [(create_ok absent done).1]
    intro row member
    rw [List.mem_singleton.mp member]
    rfl
  | moved row now write member move mover =>
    refine born_move before move ((coherent.tidy runId).present fun none => ?_)
    rw [(coherent.tidy runId).absent none] at member
    cases member
  | granted ownerId now claim granted here =>
    rw [granted_view granted runId]
    exact before
  | touched pairs rest =>
    rw [rest]
    exact before
  | rebuilt p history rebuilt created acted was done =>
    have held : (s.pc p).reads? = some (runId, history, rebuilt) := by rw [was]; rfl
    obtain ⟨reduced, grown⟩ := coherent.reads p runId history rebuilt held
    have runIds : ∀ e ∈ history, e.runId = runId := fun e member =>
      (coherent.tidy runId).runIds e (grown.subset member)
    have time := fold_created_at (read_history runIds reduced).1
    rw [(rebuilt_views coherent held done).1]
    intro row member
    rw [List.mem_singleton.mp member]
    obtain ⟨first, head, time⟩ := Option.map_eq_some_iff.mp time
    change (s.db.view runId).events.head?.map (·.occurredAt) = some rebuilt.createdAt
    rw [head_grown head grown, Option.map_some, time]

theorem born_reachable (reached : Reachable (step d) allowed State.initial s) :
    ∀ runId, Born (s.db.view runId) := by
  refine reachable_invariant (P := fun s => ∀ runId, Born (s.db.view runId))
    (fun runId row member => by cases member) ?_ reached
  intro s a t before born may taken
  exact born_effect (coherent_reachable before) born (step_effect taken)

end Birth

/- A run that is there, created at `time`. -/
structure Exists (s : State) (runId : String) (time : Datetime) : Prop where
  runs : (s.db.view runId).runs ≠ []
  born : (s.db.view runId).bornAt = some time

section Reading
variable {d : Deployment} {allowed : State → Action → Prop} {s t u : State} {runId : String}
  {time : Datetime}

theorem exists_later (reached : Reachable (step d) allowed State.initial s)
    (later : Reachable (step d) allowed s t) (there : Exists s runId time) : Exists t runId time := by
  refine (reachable_invariant (P := fun t => Exists t runId time ∧
    (t.db.view runId).events ≠ []) ⟨there, ?_⟩ ?_ later).1
  · exact ((coherent_reachable reached).tidy runId).present there.runs
  · intro t a u before ⟨there, begun⟩ may taken
    obtain ⟨grown, still⟩ := view_grows (coherent_reachable (reachable_trans reached before))
      (step_effect taken) runId
    refine ⟨⟨still there.runs, (born_at_grown begun grown).trans there.born⟩, fun none => begun ?_⟩
    rw [none] at grown
    exact List.prefix_nil.mp grown

theorem exists_row (reached : Reachable (step d) allowed State.initial s) {row : WorkflowRunRow}
    (member : row ∈ s.db.workflowRuns) : Exists s row.runId row.createdAt := by
  have inside : row ∈ (s.db.view row.runId).runs := mem_ofKey.mpr ⟨member, rfl⟩
  exact ⟨List.ne_nil_of_mem inside, born_reachable reached row.runId row inside⟩

/-- Reading a run that is there raises nothing, whatever is committed between the SELECTs. -/
theorem get_across_there (reached : Reachable (step d) allowed State.initial s)
    (there : Exists s runId time) (second third : Database) :
    ∃ run, getWorkflowRunAcross s.db second third runId = .ok run ∧ run.runId = runId ∧
      run.createdAt = time := by
  obtain ⟨row, rest, rows⟩ := List.exists_cons_of_ne_nil there.runs
  have member : row ∈ (s.db.view runId).runs := by simp [rows]
  have born := born_reachable reached runId row member
  have rows : s.db.runsOf runId = row :: rest := rows
  refine ⟨_, by simp only [getWorkflowRunAcross, rows]; rfl, (mem_ofKey.mp member).2, ?_⟩
  exact Option.some_inj.mp (born.symm.trans there.born)

theorem read_runs_there (sees : Nat → State) (rows : List WorkflowRunRow)
    (reached : ∀ k, Reachable (step d) allowed State.initial (sees k))
    (later : ∀ k, Reachable (step d) allowed (sees k) (sees (k + 1)))
    (there : ∀ row ∈ rows, Exists (sees 0) row.runId row.createdAt) :
    ∃ runs, readRuns (fun k => (sees k).db) (rows.map (·.runId)) = .ok runs ∧
      runs.map (fun run => (run.runId, run.createdAt)) =
        rows.map fun row => (row.runId, row.createdAt) := by
  induction rows generalizing sees with
  | nil => exact ⟨[], rfl, rfl⟩
  | cons row rest ih =>
    obtain ⟨run, read, named, time⟩ :=
      get_across_there (reached 0) (there row (by simp)) (sees 1).db (sees 2).db
    obtain ⟨runs, others, same⟩ := ih (fun k => sees (k + 3)) (fun k => reached (k + 3))
      (fun k => later (k + 3)) fun row member => by
        have after := reachable_trans (reachable_trans (later 0) (later 1)) (later 2)
        exact exists_later (reached 0) after (there row (List.mem_cons_of_mem _ member))
    refine ⟨run :: runs, ?_, by simp [named, time, same]⟩
    simp only [List.map_cons, readRuns, read, others]
    rfl

end Reading

/- What a listing shows of the runs that were stored when it began. -/
structure Listing (db : Database) (limit : Nat) (runs : List WorkflowRun) : Prop where
  length : runs.length = min limit db.workflowRuns.length
  distinct : (runs.map (·.runId)).Nodup
  stored : ∀ run ∈ runs, ∃ row ∈ db.workflowRuns, row.runId = run.runId ∧ row.createdAt = run.createdAt
  newest : runs.Pairwise fun a b => b.createdAt ≤ a.createdAt
  others : ∀ row ∈ db.workflowRuns, (∀ run ∈ runs, run.runId ≠ row.runId) →
    ∀ run ∈ runs, row.createdAt ≤ run.createdAt

section Listed
variable {visit : List WorkflowRunRow → List WorkflowRunRow} {db : Database} {limit : Nat}
  {runs : List WorkflowRun}

theorem newest_first_sorted (rows : List WorkflowRunRow) :
    (orderBy (fun row => - row.createdAt) rows).Pairwise fun a b => b.createdAt ≤ a.createdAt := by
  have total : Std.Total fun a b : WorkflowRunRow => - a.createdAt ≤ - b.createdAt :=
    ⟨fun a b => Int.le_total _ _⟩
  have transitive : IsTrans WorkflowRunRow fun a b => - a.createdAt ≤ - b.createdAt :=
    ⟨fun a b c first second => Int.le_trans first second⟩
  exact (List.pairwise_insertionSort _ rows).imp fun less => Int.neg_le_neg_iff.mp less

/-- The rows that LIMIT cuts off are no newer than those it leaves. -/
theorem cut_off_older {rows : List WorkflowRunRow}
    (sorted : rows.Pairwise fun a b => b.createdAt ≤ a.createdAt) {row other : WorkflowRunRow}
    (member : row ∈ rows) (cut : row ∉ rows.take limit) (kept : other ∈ rows.take limit) :
    row.createdAt ≤ other.createdAt := by
  rw [← List.take_append_drop limit rows] at sorted member
  rcases List.mem_append.mp member with inside | dropped
  · exact absurd inside cut
  · exact (List.pairwise_append.mp sorted).2.2 other kept row dropped

theorem listing_of_rows (visits : ∀ rows, (visit rows).Perm rows)
    (distinct : (db.workflowRuns.map (·.runId)).Nodup)
    (same : runs.map (fun run => (run.runId, run.createdAt)) =
      (newestFirst visit db limit).map fun row => (row.runId, row.createdAt)) :
    Listing db limit runs := by
  have sorted := newest_first_sorted (visit db.workflowRuns)
  have perm : (orderBy (fun row => - row.createdAt) (visit db.workflowRuns)).Perm db.workflowRuns :=
    (List.perm_insertionSort _ _).trans (visits _)
  have ids := congrArg (List.map Prod.fst) same
  have times := congrArg (List.map Prod.snd) same
  simp only [List.map_map, Function.comp_def] at ids times
  have listed : ∀ run ∈ runs, ∃ row ∈ newestFirst visit db limit, row.runId = run.runId ∧
      row.createdAt = run.createdAt := by
    intro run member
    have pair : (run.runId, run.createdAt) ∈ runs.map fun run => (run.runId, run.createdAt) :=
      List.mem_map_of_mem member
    rw [same] at pair
    obtain ⟨row, inside, equal⟩ := List.mem_map.mp pair
    exact ⟨row, inside, congrArg Prod.fst equal, congrArg Prod.snd equal⟩
  constructor
  · have length := congrArg List.length same
    rw [List.length_map, List.length_map, newestFirst, List.length_take, perm.length_eq] at length
    exact length
  · rw [ids]
    exact ((List.take_sublist _ _).map _).nodup ((perm.map _).nodup_iff.mpr distinct)
  · intro run member
    obtain ⟨row, inside, named, time⟩ := listed run member
    exact ⟨row, perm.subset (List.mem_of_mem_take inside), named, time⟩
  · rw [← List.pairwise_map (f := fun run : WorkflowRun => run.createdAt) (R := fun a b => b ≤ a), times,
      List.pairwise_map]
    exact sorted.sublist (List.take_sublist _ _)
  · intro row member absent run inside
    obtain ⟨other, kept, _, time⟩ := listed run inside
    rw [← time]
    refine cut_off_older sorted (perm.symm.subset member) (fun there => ?_) kept
    have named : row.runId ∈ (newestFirst visit db limit).map (·.runId) := List.mem_map_of_mem there
    rw [← ids] at named
    obtain ⟨run', member', same'⟩ := List.mem_map.mp named
    exact absent run' member' same'

end Listed

section Answers
variable {d : Deployment} {allowed : State → Action → Prop}

theorem exists_created {s t : State} {definition : WorkflowDefinition} {toolKey : Option String}
    {defaultToolKey runId : String} {now : Datetime} (coherent : Coherent s)
    (done : createWorkflowRun s.db definition toolKey defaultToolKey runId now = .ok t.db) :
    Exists t runId now := by
  have absent := (coherent.tidy runId).absent (create_absent done)
  have written := (create_ok absent done).1
  constructor
  · rw [written]
    exact List.cons_ne_nil _ _
  · rw [written]
    rfl

/-- Whatever workers and rebuilds commit between its SELECTs, a listing is answered, with the
    newest of the runs that were stored when it began. -/
theorem listing_answered (visit : List WorkflowRunRow → List WorkflowRunRow) (sees : Nat → State)
    (limit : Option Int) (visits : ∀ rows, (visit rows).Perm rows)
    (reached : Reachable (step d) anyStep State.initial (sees 0))
    (later : ∀ k, Reachable (step d) anyStep (sees k) (sees (k + 1)))
    (accepted : 1 ≤ limit.getD 100 ∧ limit.getD 100 ≤ 500) :
    ∃ runs, Api.listWorkflowRuns visit (fun k => (sees k).db) limit = .success 200 runs ∧
      Listing (sees 0).db (limit.getD 100).toNat runs := by
  have each : ∀ k, Reachable (step d) anyStep State.initial (sees k) := by
    intro k
    induction k with
    | zero => exact reached
    | succ k ih => exact reachable_trans ih (later k)
  have coherent := coherent_reachable reached
  have there : ∀ row ∈ newestFirst visit (sees 0).db (limit.getD 100).toNat,
      Exists (sees 1) row.runId row.createdAt := by
    intro row member
    have visited := mem_orderBy.mp (List.mem_of_mem_take member)
    exact exists_later reached (later 0) (exists_row reached ((visits _).subset visited))
  obtain ⟨runs, read, same⟩ := read_runs_there (fun k => sees (k + 1)) _
    (fun k => each (k + 1)) (fun k => later (k + 1)) there
  have distinct := keys_distinct fun runId => (coherent.tidy runId).runs
  refine ⟨runs, ?_, listing_of_rows visits distinct same⟩
  simp only [Api.listWorkflowRuns, if_pos accepted, listWorkflowRuns, read]

/- A second run is created; the claim, the attempt and the completion of the first come after. -/
def createdTwice : List Action :=
  [.beginCreate 0 "a1" onboarding none 1, .commitCreate 0, .beginCreate 1 "a2" onboarding none 2,
    .commitCreate 1]

def firstCharged : List Action :=
  [.beginClaim 0 2, .commitClaim 0 0, .beginRecord 0 3, .commitRecord 0 4, .send 0] ++ chargeCompletion

theorem newest_run_listed : ∃ s t runs, run (step sharedWorker) State.initial createdTwice = some s ∧
    run (step sharedWorker) s firstCharged = some t ∧
    Api.listWorkflowRuns id (fun k => (if k = 0 then s else t).db) (some 1) = .success 200 runs ∧
    runs.length = 1 ∧ Listing s.db 1 runs := by
  have counted : ((run (step sharedWorker) State.initial createdTwice).bind fun s =>
      (run (step sharedWorker) s firstCharged).map fun _ => s.db.workflowRuns.length) = some 2 := by
    decide +kernel
  obtain ⟨s, ran, counted⟩ := Option.bind_eq_some_iff.mp counted
  obtain ⟨t, charged, counted⟩ := Option.map_eq_some_iff.mp counted
  have reached : Reachable (step sharedWorker) anyStep State.initial s :=
    reachable_run createdTwice (fun _ _ _ => trivial) .start ran
  have later : Reachable (step sharedWorker) anyStep s t :=
    reachable_run firstCharged (fun _ _ _ => trivial) .start charged
  have moments : ∀ k, Reachable (step sharedWorker) anyStep (if k = 0 then s else t)
      (if k + 1 = 0 then s else t) := by
    intro k
    cases k with
    | zero => exact later
    | succ k => exact .start
  obtain ⟨runs, answered, listing⟩ := listing_answered id (fun k => if k = 0 then s else t) (some 1)
    (fun _ => .refl _) reached moments (by decide)
  have listing : Listing s.db 1 runs := listing
  refine ⟨s, t, runs, ran, charged, answered, ?_, listing⟩
  rw [listing.length, counted]
  rfl

end Answers

end Crashsafe
