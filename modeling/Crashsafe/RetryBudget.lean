import Crashsafe.Outcomes
import Crashsafe.AttemptOutcomes

/- The retry budget. A worker tests it on the attempt it remembers and the retry event takes its
   number from the row; the two agree while the worker has the lease. -/
namespace Crashsafe
open Rows Replay Execution

def retryNumbers (stepId : String) (events : List WorkflowRunEvent) : List (Option Int) :=
  (events.filter (isOf .stepRetryScheduled stepId)).map (·.attempt)

/-- The step and its run have failed for good by two events at the end of the history. -/
def EndsRun (before after : Database) (tried : StepRecord) : Prop :=
  (∃ e f, after.eventsOf tried.runId = before.eventsOf tried.runId ++ [e, f] ∧
    e.eventType = .stepFailed ∧ e.stepId = some tried.id ∧ e.attempt = some tried.attempts ∧
    f.eventType = .workflowRunFailed ∧ f.stepId = some tried.id) ∧
  ∀ row ∈ after.runsOf tried.runId, row.status = .failed

/- No retry is decided on, waited for or told of that the budget does not allow. -/
structure Budgeted (m : Int) (s : State) : Prop where
  decisions : ∀ p tried error deadline throttleTool,
    (s.pc p).decision? = some (tried, .retry error deadline throttleTool) → tried.attempts < m
  rows : ∀ runId, ∀ row ∈ (s.db.view runId).steps, row.status = .retryWait → row.attempts < m
  events : ∀ runId, ∀ e ∈ (s.db.view runId).events, e.eventType = .stepRetryScheduled →
    ∃ n, e.attempt = some n ∧ n < m

section Deciding
variable {settings : Settings} {tried : StepRecord} {message : String} {retryAfter : Option PyFloat}
  {throttleTool : Bool} {now : Datetime}

theorem retry_unspent {outcome : Outcome} {error : String} {deadline : Datetime}
    (chosen : decideOutcome settings tried now outcome = some (.retry error deadline throttleTool)) :
    tried.attempts < settings.maxAttempts := by
  cases outcome with
  | retryable message retryAfter throttle =>
    simp only [decideOutcome, handleRetryableFailure] at chosen
    split at chosen
    · cases chosen
    · rename_i unspent
      exact not_le.mp unspent
  | result | permanent | raised => cases chosen

theorem retryable_spent (spent : settings.maxAttempts ≤ tried.attempts) :
    decideOutcome settings tried now (.retryable message retryAfter throttleTool) =
      some (.fail s!"retry budget exhausted: {message}") := by
  simp [decideOutcome, handleRetryableFailure, spent]

end Deciding

section Kept
variable {d : Deployment} {m : Int} {s t : State} {a : Action} {runId : String}

/-- The row a worker moves on is at the attempt it remembers. -/
theorem decided_row (guarded : Guarded s) {claim : ClaimedStep} {tried : StepRecord}
    {row : StepRow} (flight : InFlight s.db claim tried)
    (pair : pairOf claim.lease ∈ (s.db.view claim.lease.runId).pairs)
    (member : row ∈ (s.db.view claim.lease.runId).steps) (named : tried.id = row.id) :
    row.attempts = tried.attempts := by
  obtain ⟨other, inside, same, _, number⟩ := flight pair
  rw [← number, List.inj_on_of_nodup_map (guarded.coherent.tidy claim.lease.runId).distinct member
    inside (named.symm.trans same.symm)]

/-- A retry of a row is within the budget. -/
theorem retry_moves_within (guarded : Guarded s) (budgeted : Budgeted m s)
    (flights : ∀ p claim step, (s.pc p).attempt? = some (claim, step) → InFlight s.db claim step)
    {row : StepRow} {error : String} {deadline : Datetime} {write : Write}
    (asked : write = .retry error deadline) (member : row ∈ (s.db.view runId).steps)
    (mover : MovedBy s t runId row.id a write) : row.attempts < m := by
  cases mover with
  | recorded => cases asked
  | decided p claim tried decision now leaseNow was after here named pair =>
    subst here
    have flight := flights p claim tried (by rw [was]; rfl)
    rw [decided_row guarded flight pair member named]
    cases decision with
    | retry error' deadline' throttleTool =>
      exact budgeted.decisions p tried error' deadline' throttleTool (by rw [was]; rfl)
    | fail | complete => cases asked

theorem decisions_effect (shared : ∀ p, (d.settings p).maxAttempts = m) (budgeted : Budgeted m s)
    (effect : Effect d s a t) (p : Nat) (tried : StepRecord) (error : String) (deadline : Datetime)
    (throttleTool : Bool) (held : (t.pc p).decision? = some (tried, .retry error deadline throttleTool)) :
    tried.attempts < m := by
  rcases decision_effect effect held with before | ⟨_, _, outcome, now, _, _, _, _, chosen⟩
  · exact budgeted.decisions p tried error deadline throttleTool before
  · exact shared p ▸ retry_unspent chosen

theorem waits_effect (guarded : Guarded s) (budgeted : Budgeted m s)
    (flights : ∀ p claim step, (s.pc p).attempt? = some (claim, step) → InFlight s.db claim step)
    (effect : Effect d s a t) (row : StepRow) (member : row ∈ (t.db.view runId).steps)
    (waiting : row.status = .retryWait) : row.attempts < m := by
  rcases row_after guarded effect member with
    old | ⟨old, now, write, inside, written, _, mover⟩ | ⟨fresh, _⟩
  · exact budgeted.rows runId row old waiting
  · cases write with
    | retry error deadline =>
      have within := retry_moves_within guarded budgeted flights rfl inside mover
      rw [written]
      exact within
    | attempt | fail | complete =>
      rw [written] at waiting
      cases waiting
  · rw [fresh.pending] at waiting
    cases waiting

/-- A move tells of a retry only if it makes one. -/
theorem moved_retry {v w : RunView} {row : StepRow} {now : Datetime} {write : Write}
    (move : RunMove runId v row now write w) {e : WorkflowRunEvent} (member : e ∈ w.events)
    (kind : e.eventType = .stepRetryScheduled) :
    e ∈ v.events ∨ e.attempt = some row.attempts ∧ ∃ error deadline, write = .retry error deadline := by
  cases move with
  | attempted =>
    refine (List.mem_append.mp member).imp id fun new => ?_
    rw [List.mem_singleton.mp new] at kind
    cases kind
  | retried error deadline =>
    refine (List.mem_append.mp member).imp id fun new => ?_
    rw [List.mem_singleton.mp new]
    exact ⟨rfl, error, deadline, rfl⟩
  | failed =>
    refine .inl ?_
    rcases List.mem_append.mp member with old | new
    · refine (List.mem_append.mp old).elim id fun new => ?_
      rw [List.mem_singleton.mp new] at kind
      cases kind
    · rw [List.mem_singleton.mp new] at kind
      cases kind
  | completed output active w written =>
    rw [written] at member
    refine (List.mem_append.mp member).imp id fun new => ?_
    rw [List.mem_singleton.mp new] at kind
    cases kind
  | finished output active w written =>
    refine .inl ?_
    rcases List.mem_append.mp member with old | new
    · rw [written] at old
      refine (List.mem_append.mp old).elim id fun new => ?_
      rw [List.mem_singleton.mp new] at kind
      cases kind
    · rw [List.mem_singleton.mp new] at kind
      cases kind

theorem told_effect (guarded : Guarded s) (budgeted : Budgeted m s)
    (flights : ∀ p claim step, (s.pc p).attempt? = some (claim, step) → InFlight s.db claim step)
    (effect : Effect d s a t) (e : WorkflowRunEvent) (member : e ∈ (t.db.view runId).events)
    (kind : e.eventType = .stepRetryScheduled) : ∃ n, e.attempt = some n ∧ n < m := by
  have before := budgeted.events runId e
  cases effect_view guarded.coherent effect runId with
  | same view => exact before (view ▸ member) kind
  | created definition toolKey defaultToolKey now absent done =>
    rw [(create_ok absent done).1] at member
    rw [List.mem_singleton.mp member] at kind
    cases kind
  | moved row now write inside move mover =>
    rcases moved_retry move member kind with old | ⟨number, error, deadline, asked⟩
    · exact before old kind
    · exact ⟨row.attempts, number, retry_moves_within guarded budgeted flights asked inside mover⟩
  | granted owner now claim granted =>
    rw [granted_view granted runId] at member
    exact before member kind
  | touched pairs rest =>
    rw [rest] at member
    exact before member kind
  | rebuilt p history rebuilt created acted was =>
    have unread := guarded.unread p
    rw [was] at unread
    cases unread

theorem budgeted_start : Budgeted m State.initial := by
  refine ⟨fun p tried error deadline throttleTool held => ?_, fun runId row member => ?_,
    fun runId e member => ?_⟩
  · cases held
  · cases member
  · cases member

theorem budgeted_reachable (shared : ∀ p, (d.settings p).maxAttempts = m)
    (reached : Reachable (step d) noRebuild State.initial s) : Budgeted m s := by
  refine reachable_invariant budgeted_start ?_ reached
  intro s a t before budgeted may taken
  have guarded := guarded_reachable before
  have flights := in_flight_reachable before
  have effect := step_effect taken
  exact ⟨decisions_effect shared budgeted effect, fun _ => waits_effect guarded budgeted flights effect,
    fun _ => told_effect guarded budgeted flights effect⟩

end Kept

section Counting

/-- Numbers that rise from 1 on to below a bound are fewer than it. -/
theorem rises_count {bound : Int} {numbers : List (Option Int)} (rises : RisesBelow bound numbers) :
    (numbers.length : Int) ≤ max (bound - 1) 0 := by
  obtain ⟨xs, rfl, rising, inside⟩ := rises
  have distinct : xs.Nodup := rising.imp fun less => less.ne
  have within : xs.toFinset ⊆ Finset.Ico 1 bound := by
    intro x member
    exact Finset.mem_Ico.mpr (inside x (List.mem_toFinset.mp member))
  have few := Finset.card_le_card within
  rw [List.toFinset_card_of_nodup distinct, Int.card_Ico] at few
  rw [List.length_map]
  omega

end Counting

/-- The budget of a limit on attempts that all workers share. -/
structure RetriesWithin (d : Deployment) (m : Int) (s : State) : Prop where
  numbers : ∀ runId stepId, RisesBelow m (retryNumbers stepId (s.db.eventsOf runId))
  count : ∀ runId stepId,
    ((s.db.eventsOf runId).countP (isOf .stepRetryScheduled stepId) : Int) ≤ max (m - 1) 0
  unspent : ∀ p claim tried error deadline throttleTool now,
    s.pc p = .committing claim tried (.retry error deadline throttleTool) now → tried.attempts < m
  spent : ∀ p claim tried request message retryAfter throttleTool now,
    s.pc p = .waiting claim tried request → m ≤ tried.attempts →
    ∃ t error, step d s (.resolve p (.retryable message retryAfter throttleTool) now) = some t ∧
      t.pc p = .decided claim tried (.fail error) ∧
      ∀ actions u now' leaseNow db, (∀ s, ∀ a ∈ actions, noRebuild s a) →
        run (step d) t actions = some u → u.pc p = .committing claim tried (.fail error) now' →
        commit u.db claim.lease tried (.fail error) now' leaseNow = .ok db → EndsRun u.db db tried
  waiting : ∀ runId, ∀ row ∈ s.db.stepsOf runId, m ≤ row.attempts → row.status ≠ .retryWait

section Reached
variable {d : Deployment} {m : Int} {s : State} {runId stepId : String}

theorem retries_rise (reached : Reachable (step d) noRebuild State.initial s)
    (budgeted : Budgeted m s) : RisesBelow m (retryNumbers stepId (s.db.eventsOf runId)) := by
  by_cases known : ∃ e ∈ s.db.eventsOf runId, isOf .stepRetryScheduled stepId e
  · obtain ⟨e, member, mine⟩ := known
    simp only [isOf, decide_eq_true_eq] at mine
    have begun : (s.db.view runId).events ≠ [] := List.ne_nil_of_mem member
    obtain ⟨run, consistent⟩ := history_consistent (faithful_reachable reached) begun
    have outcomes := fold_outcomes consistent.folded
    obtain ⟨step, inside, named⟩ := outcomes.named e member (by simp [mine.1, outcomeTypes])
    obtain rfl : step.id = stepId := by
      rw [mine.2, Option.some.injEq] at named
      exact named.symm
    -- The retries are some of the outcomes, and each of them is within the budget.
    have some : (retryNumbers step.id (s.db.eventsOf runId)).Sublist
        (outcomeNumbers step.id (s.db.eventsOf runId)) := by
      refine (List.monotone_filter_right _ fun e retry => ?_).map _
      simp only [isOf, isOutcomeOf, decide_eq_true_eq] at retry ⊢
      simp [retry, outcomeTypes]
    obtain ⟨xs, listed, rising, from1⟩ := rises_sublist (outcomes.decided step inside).outcomes some
    refine ⟨xs, listed, rising, fun x member => ⟨(from1 x member).1, ?_⟩⟩
    have told : Option.some x ∈ retryNumbers step.id (s.db.eventsOf runId) := by
      rw [listed]
      exact List.mem_map_of_mem member
    obtain ⟨f, there, number⟩ := List.mem_map.mp told
    obtain ⟨there, retry⟩ := List.mem_filter.mp there
    simp only [isOf, decide_eq_true_eq] at retry
    obtain ⟨n, same, within⟩ := budgeted.events runId f there retry.1
    rw [same, Option.some.injEq] at number
    exact number ▸ within
  · have none : (s.db.eventsOf runId).filter (isOf .stepRetryScheduled stepId) = [] :=
      List.filter_eq_nil_iff.mpr fun e member mine => known ⟨e, member, mine⟩
    rw [retryNumbers, none]
    exact rises_nil

theorem fail_ends_run (reached : Reachable (step d) noRebuild State.initial s) {p : Nat}
    {claim : ClaimedStep} {tried : StepRecord} {error : String} {now leaseNow : Datetime} {db : Database}
    (was : s.pc p = .committing claim tried (.fail error) now)
    (stored : commit s.db claim.lease tried (.fail error) now leaseNow = .ok db) :
    EndsRun s.db db tried := by
  have guarded := guarded_reachable reached
  have attempt : (s.pc p).attempt? = some (claim, tried) := by rw [was]; rfl
  have sameRun := guarded.coherent.attempts p claim tried attempt
  obtain ⟨row, committed⟩ := fail_step_ok stored
  have pair := require_lease_ok committed.lease
  rw [(mem_ofKey.mp committed.member).2, sameRun] at pair
  have number := decided_row guarded (in_flight_reachable reached p claim tried attempt) pair
    (sameRun ▸ committed.member) committed.named.symm
  have move := committed.move
  generalize after : db.view tried.runId = w at move
  cases move with
  | failed =>
    have events := congrArg RunView.events after
    have runs := congrArg RunView.runs after
    constructor
    · exact ⟨_, _, events.trans (List.append_assoc _ _ _), rfl, congrArg some committed.named,
        congrArg some number, rfl, congrArg some committed.named⟩
    · intro run member
      have inside : run ∈ (db.view tried.runId).runs := member
      rw [after] at inside
      obtain ⟨old, _, rfl⟩ := List.mem_map.mp inside
      rfl

end Reached

/-- Whatever attempts crashes and takeovers add, retries stay within the budget, and the first
    retryable failure past it ends the run. -/
theorem retry_budget {d : Deployment} {s : State} (m : Int)
    (shared : ∀ p, (d.settings p).maxAttempts = m)
    (reached : Reachable (step d) noRebuild State.initial s) : RetriesWithin d m s := by
  have budgeted := budgeted_reachable shared reached
  refine ⟨fun _ _ => retries_rise reached budgeted, fun runId stepId => ?_, ?_, ?_, ?_⟩
  · have numbers : RisesBelow m (retryNumbers stepId (s.db.eventsOf runId)) :=
      retries_rise reached budgeted
    have count := rises_count numbers
    rwa [retryNumbers, List.length_map, ← List.countP_eq_length_filter] at count
  · intro p claim tried error deadline throttleTool now was
    exact budgeted.decisions p tried error deadline throttleTool (by rw [was]; rfl)
  · intro p claim tried request message retryAfter throttleTool now was late
    have taken : step d s (.resolve p (.retryable message retryAfter throttleTool) now) =
        some (s.goto p (.decided claim tried (.fail s!"retry budget exhausted: {message}"))) := by
      simp only [step, was]
      rw [retryable_spent (by rw [shared p]; exact late)]
    refine ⟨_, _, taken, goto_same, fun actions u now' leaseNow db quiet ran committing stored => ?_⟩
    have resolved : noRebuild s (.resolve p (.retryable message retryAfter throttleTool) now) := by
      simp [noRebuild]
    exact fail_ends_run (reachable_run actions quiet (.next reached resolved taken) ran) committing stored
  · intro runId row member late waiting
    have within := budgeted.rows runId row member waiting
    omega

theorem retried_charge_within_budget :
    ∃ s, run (step sharedWorker) State.initial retriedCharge = some s ∧
      retryNumbers "charge" (s.db.eventsOf "a1") = [some 1] ∧ RetriesWithin sharedWorker 3 s := by
  have numbers : (run (step sharedWorker) State.initial retriedCharge).map
      (fun s => retryNumbers "charge" (s.db.eventsOf "a1")) = some [some 1] := by decide +kernel
  obtain ⟨s, ran, numbers⟩ := Option.map_eq_some_iff.mp numbers
  have reached : Reachable (step sharedWorker) noRebuild State.initial s :=
    reachable_run retriedCharge (by simp [retriedCharge, noRebuild]) .start ran
  exact ⟨s, ran, numbers, retry_budget 3 (fun _ => rfl) reached⟩

end Crashsafe
