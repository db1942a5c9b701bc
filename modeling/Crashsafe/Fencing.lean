import Crashsafe.EngineViews

/- Fence tokens. Without rebuilds the lease row of a run always holds the latest lease issued
   on it; a rebuild deletes the row and with it the last token used. -/
namespace Crashsafe
open Rows Replay Execution

/-- Fencing is sound on a run: tokens have strictly increased so far, the next claim issues a
    greater one, and only the pair of the latest claim can pass the lease check. -/
structure Fenced (s : State) (runId : String) : Prop where
  increasing : ((issuedOn s runId).map (·.fenceToken)).Pairwise (· < ·)
  next : (∃ row ∈ (s.db.view runId).runs, row.status = .running) →
    ∀ lease ∈ issuedOn s runId, lease.fenceToken < nextFenceToken s.db runId
  current : ∀ pair ∈ (s.db.view runId).pairs,
    (issuedOn s runId).getLast?.map pairOf = some pair

/-- A rebuild that commits a running run finds that no lease was ever issued on it. -/
def RebuildsUnclaimed (s : State) (a : Action) : Prop :=
  ∀ p runId history rebuilt created db, a = .commitRebuild p →
    s.pc p = .rewriting runId history rebuilt created →
    rebuildProjection s.db runId rebuilt created = .ok db →
    rebuilt.status = .running → issuedOn s runId = []

section Tokens
variable {s t : State} {runId : String}

theorem next_token_pairs {db db' : Database} (same : (db'.view runId).pairs = (db.view runId).pairs) :
    nextFenceToken db' runId = nextFenceToken db runId := by
  have tokens : ∀ v : RunView, v.leases.head?.map (·.fenceToken) = v.pairs.head?.map Prod.snd := by
    intro v
    simp [RunView.pairs, pairOf, Function.comp_def]
  rw [next_fence_token_view, next_fence_token_view, tokens, tokens, same]

/-- A step that keeps the lease pairs, the issue log and no run newly running keeps fencing. -/
theorem fenced_kept (before : Fenced s runId) (log : issuedOn t runId = issuedOn s runId)
    (pairs : (t.db.view runId).pairs = (s.db.view runId).pairs)
    (running : (∃ row ∈ (t.db.view runId).runs, row.status = .running) →
      ∃ row ∈ (s.db.view runId).runs, row.status = .running) : Fenced t runId := by
  refine ⟨log ▸ before.increasing, fun live lease member => ?_, fun pair member => ?_⟩
  · rw [next_token_pairs pairs]
    exact before.next (running live) lease (log ▸ member)
  · rw [log]
    exact before.current pair (pairs ▸ member)

theorem move_stays_running {v w : RunView} {row : StepRow} {now : Datetime} {write : Write}
    (move : RunMove runId v row now write w) (live : ∃ r ∈ w.runs, r.status = .running) :
    ∃ r ∈ v.runs, r.status = .running := by
  obtain ⟨r, member, running⟩ := live
  rcases move_runs move with same | same | same
  · exact ⟨r, same ▸ member, running⟩
  · rw [same] at member
    obtain ⟨old, _, written⟩ := List.mem_map.mp member
    rw [← written] at running
    cases running
  · rw [same] at member
    obtain ⟨old, _, written⟩ := List.mem_map.mp member
    rw [← written] at running
    cases running

theorem unissued_absent (coherent : Coherent s) (absent : (s.db.view runId).runs = []) :
    issuedOn s runId = [] := by
  apply ofKey_none
  intro lease member same
  exact (coherent.issued lease member).2 (same ▸ absent)

theorem fenced_granted {owner : String} {now : Datetime} {claim : ClaimedStep}
    (coherent : Coherent s) (before : Fenced s claim.lease.runId)
    (granted : Granted s.db owner now t.db claim)
    (log : issuedOn t claim.lease.runId = issuedOn s claim.lease.runId ++ [claim.lease]) :
    Fenced t claim.lease.runId := by
  have pairs := granted_pairs coherent granted
  have token : claim.lease.fenceToken = nextFenceToken s.db claim.lease.runId := by
    rw [next_fence_token_view]
    exact granted.token
  have live : ∃ row ∈ (s.db.view claim.lease.runId).runs, row.status = .running := by
    obtain ⟨_, _, run, member, eligible, _⟩ := granted.selected
    exact ⟨run, member, eligible.2.1⟩
  have above : ∀ lease ∈ issuedOn s claim.lease.runId, lease.fenceToken < claim.lease.fenceToken :=
    fun lease member => token ▸ before.next live lease member
  refine ⟨?_, fun _ lease member => ?_, fun pair member => ?_⟩
  · rw [log, List.map_append, List.pairwise_append]
    refine ⟨before.increasing, by simp, ?_⟩
    intro x inside y last
    obtain ⟨lease, member, rfl⟩ := List.mem_map.mp inside
    rw [List.map_singleton, List.mem_singleton] at last
    rw [last]
    exact above lease member
  · have following : nextFenceToken t.db claim.lease.runId = claim.lease.fenceToken + 1 := by
      rw [next_fence_token_view, granted.lease (coherent.tidy claim.lease.runId).leases]
      rfl
    rw [following]
    rw [log] at member
    rcases List.mem_append.mp member with old | new
    · exact lt_trans (above lease old) (Int.lt_succ _)
    · rw [List.mem_singleton.mp new]
      exact Int.lt_succ _
  · rw [pairs, List.mem_singleton] at member
    rw [log, member]
    simp

end Tokens

section Steps
variable {d : Deployment} {s t : State} {a : Action}

/-- One step keeps fencing sound unless it rebuilds a running run that was claimed before. -/
theorem fenced_effect (coherent : Coherent s) (before : ∀ runId, Fenced s runId)
    (effect : Effect d s a t) (careful : RebuildsUnclaimed s a) : ∀ runId, Fenced t runId := by
  intro runId
  cases effect_view coherent effect runId with
  | same view log => exact fenced_kept (before runId) log (by rw [view]) (by rw [view]; exact id)
  | created definition toolKey defaultToolKey now absent done log =>
    have none : issuedOn t runId = [] := log.trans (unissued_absent coherent (by rw [absent]; rfl))
    refine ⟨by simp [none], by simp [none], fun pair member => ?_⟩
    rw [(create_ok absent done).1] at member
    cases member
  | moved row now write member move mover log =>
    refine fenced_kept (before runId) log ?_ (move_stays_running move)
    rw [RunView.pairs, RunView.pairs, move_leases move]
  | granted owner now claim granted here log =>
    subst here
    exact fenced_granted coherent (before claim.lease.runId) granted log
  | touched pairs rest log =>
    apply fenced_kept (before runId) log pairs
    rw [rest]
    exact id
  | rebuilt p history rebuilt created acted was done log =>
    have held : (s.pc p).reads? = some (runId, history, rebuilt) := by rw [was]; rfl
    have written := (rebuilt_views coherent held done).1
    refine ⟨log ▸ (before runId).increasing, fun live => ?_, fun pair member => ?_⟩
    · rw [written] at live
      obtain ⟨row, member, running⟩ := live
      rw [List.mem_singleton.mp member] at running
      have none := careful p runId history rebuilt created t.db acted was done running
      rw [log, none]
      simp
    · rw [written] at member
      cases member

/-- After a rebuild of a running run that was claimed before, the next token is one that may
    already have been issued. -/
theorem careless_rebuild (coherent : Coherent s) (taken : step d s a = some t)
    (after : ∀ runId, Fenced t runId) : RebuildsUnclaimed s a := by
  intro p runId history rebuilt created db acted was done running
  subst acted
  simp only [step, was, done, Option.some.injEq] at taken
  subst taken
  have held : (s.pc p).reads? = some (runId, history, rebuilt) := by rw [was]; rfl
  have written : db.view runId = _ := (rebuilt_views coherent held done).1
  have live : ∃ row ∈ (db.view runId).runs, row.status = .running := by
    rw [written]
    exact ⟨rebuiltRunRow rebuilt created, List.mem_singleton.mpr rfl, running⟩
  have first : nextFenceToken db runId = 1 := by
    rw [next_fence_token_view, written]
    rfl
  apply List.eq_nil_iff_forall_not_mem.mpr
  intro lease member
  have below := (after runId).next live lease member
  have positive := (coherent.issued lease (mem_ofKey.mp member).1).1
  change lease.fenceToken < nextFenceToken db runId at below
  omega

end Steps

theorem fenced_start (runId : String) : Fenced State.initial runId := by
  refine ⟨List.Pairwise.nil, fun _ lease member => ?_, fun pair member => ?_⟩
  · cases member
  · cases member

/-- Fencing stays sound through an execution exactly when no rebuild that commits a running
    run comes after a claim on that run. -/
theorem rebuild_keeps_fencing_iff (d : Deployment) (actions : List Action) :
    Always (step d) (fun s => ∀ runId, Fenced s runId) State.initial actions ↔
      EachStep (step d) RebuildsUnclaimed State.initial actions := by
  refine always_iff_eachStep (R := Coherent) ?_ ?_ actions State.initial coherent_start fenced_start
  · exact fun _ _ _ coherent taken => coherent_effect coherent (step_effect taken)
  · intro s a t coherent before taken
    exact ⟨careless_rebuild coherent taken, fenced_effect coherent before (step_effect taken)⟩

section Counterexample

/- Process 0 claims the run, process 2 rebuilds it, and process 1 claims it again. -/
def rebuiltWhileClaimed : List Action :=
  [.beginCreate 0 "a1" onboarding none 1, .commitCreate 0, .beginClaim 0 2, .commitClaim 0 0,
    .readHistory 2 "a1", .readCreation 2, .commitRebuild 2, .beginClaim 1 3, .commitClaim 1 0]

theorem rebuild_reuses_fence_token :
    ¬ ∀ s, Reachable (step sharedWorker) anyStep State.initial s → ∀ runId, Fenced s runId := by
  intro fenced
  have issued : (run (step sharedWorker) State.initial rebuiltWhileClaimed).map
      (fun s => (issuedOn s "a1").map (·.fenceToken)) = some [1, 1] := by decide +kernel
  obtain ⟨s, ran, tokens⟩ := Option.map_eq_some_iff.mp issued
  have increasing := (fenced s (reachable_run _ (fun _ _ _ => trivial) .start ran) "a1").increasing
  rw [tokens] at increasing
  exact absurd increasing (by decide)

end Counterexample

end Crashsafe
