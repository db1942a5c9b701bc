import Crashsafe.ReadBack

/- One specification for both graph validators: the submitted steps and the definitions
   materialized from them are accepted exactly when the graph is well formed. -/
namespace Crashsafe
open DependencyOrder

/-- Step `a` lists step `b` among its dependencies. -/
def DependsOn (steps : List WorkflowStep) (a b : String) : Prop :=
  ∃ step ∈ steps, step.id = a ∧ b ∈ step.dependsOn

structure WellFormedGraph (steps : List WorkflowStep) : Prop where
  distinct : (steps.map (·.id)).Nodup
  unique : ∀ step ∈ steps, step.dependsOn.Nodup
  known : ∀ step ∈ steps, ∀ d ∈ step.dependsOn, d ∈ steps.map (·.id)
  notSelf : ∀ step ∈ steps, step.id ∉ step.dependsOn
  acyclic : ∀ i, ¬ Relation.TransGen (DependsOn steps) i i

section Specification
variable {steps : List WorkflowStep}

theorem step_depends_on (distinct : (steps.map (·.id)).Nodup) :
    (fun a b => b ∈ stepDependsOn steps a) = DependsOn steps := by
  funext a b
  refine propext ⟨fun listed => ?_, ?_⟩
  · unfold stepDependsOn at listed
    split at listed
    · rename_i step found
      exact ⟨step, List.mem_of_find?_eq_some found, by simpa using List.find?_some found, listed⟩
    · simp at listed
  · rintro ⟨step, member, rfl, listed⟩
    unfold stepDependsOn
    split
    · rename_i other found
      have sameId : other.id = step.id := by simpa using List.find?_some found
      rwa [List.inj_on_of_nodup_map distinct (List.mem_of_find?_eq_some found) member sameId]
    · rename_i missing
      have absent := List.find?_eq_none.mp missing step member
      simp at absent

theorem depends_listed {i : String} (some : stepDependsOn steps i ≠ []) : i ∈ steps.map (·.id) := by
  unfold stepDependsOn at some
  split at some
  · rename_i step found
    have sameId : step.id = i := by simpa using List.find?_some found
    exact sameId ▸ List.mem_map_of_mem (List.mem_of_find?_eq_some found)
  · exact absurd rfl some

/-- Acyclicity is the existence of an order to run the steps in. -/
theorem well_formed_iff :
    WellFormedGraph steps ↔ (steps.map (·.id)).Nodup ∧
      (∀ step ∈ steps, checkStep (steps.map (·.id)) step = .ok ()) ∧
      ∃ order, Ordered (stepDependsOn steps) order ∧ (∀ i ∈ order, i ∈ steps.map (·.id)) ∧
        ∀ i ∈ steps.map (·.id), i ∈ order := by
  simp only [check_step_ok]
  constructor
  · intro h
    have relation := step_depends_on h.distinct
    refine ⟨h.distinct, fun step member =>
      ⟨h.unique step member, h.notSelf step member, h.known step member⟩, ?_⟩
    refine order_of_acyclic h.distinct ?_ ?_
    · intro i cycle
      exact h.acyclic i (relation ▸ cycle)
    · intro i _ d listed
      obtain ⟨step, member, _, inside⟩ : DependsOn steps i d := relation ▸ listed
      exact h.known step member d inside
  · rintro ⟨distinct, checks, order, ordered, _, covers⟩
    have relation := step_depends_on distinct
    refine ⟨distinct, fun step member => (checks step member).1,
      fun step member => (checks step member).2.2, fun step member => (checks step member).2.1, ?_⟩
    intro i cycle
    exact acyclic_of_ordered ordered (fun x some => covers x (depends_listed some)) i
      (by rw [Needs, relation]; exact cycle)

theorem checked_unique {known : List String}
    (checks : ∀ step ∈ steps, checkStep known step = .ok ()) (i : String) :
    (stepDependsOn steps i).Nodup := by
  unfold stepDependsOn
  split
  · rename_i step found
    exact (check_step_ok.mp (checks step (List.mem_of_find?_eq_some found))).1
  · exact List.nodup_nil

end Specification

section Submitted
variable {steps : List WorkflowStep}

theorem drain_ready_more {ids : List String} {rounds more : Nat}
    {dependencies : String → List String} {ready visited out : List String}
    (drained : drainReady ids rounds dependencies ready visited = some out) (le : rounds ≤ more) :
    drainReady ids more dependencies ready visited = some out := by
  induction rounds generalizing more dependencies ready visited with
  | zero =>
    cases ready with
    | nil => simpa [drainReady] using drained
    | cons current ready => cases drained
  | succ rounds ih =>
    cases ready with
    | nil => simpa [drainReady] using drained
    | cons current ready =>
      obtain ⟨more, rfl⟩ := Nat.exists_eq_add_of_le' (by omega : 1 ≤ more)
      simp only [drainReady] at drained ⊢
      exact ih drained (by omega)

/-- Where the queue loop is reached it ends within one round for each id, whatever rounds are
    allowed beyond these. -/
theorem queue_ends (distinct : (steps.map (·.id)).Nodup)
    (checks : ∀ step ∈ steps, checkStep (steps.map (·.id)) step = .ok ()) :
    ∃ visited, QueueSound (steps.map (·.id)) (stepDependsOn steps)
        (fun i => (stepDependsOn steps i).filter fun d => d ∉ visited) [] visited ∧
      ∀ rounds, steps.length ≤ rounds →
        drainReady (steps.map (·.id)) rounds (stepDependsOn steps)
          ((steps.map (·.id)).filter fun i => stepDependsOn steps i = []) [] = some visited := by
  obtain ⟨visited, drained, sound⟩ := drain_ready_sound distinct (checked_unique checks)
    steps.length (stepDependsOn steps) _ [] (queue_start distinct) (by simp)
  refine ⟨visited, sound, fun rounds enough => ?_⟩
  exact drain_ready_more drained enough

/-- A queue that ran dry visited everything there is an order for. -/
theorem queue_covers {ids visited order : List String} {deps left : String → List String}
    (sound : QueueSound ids deps left [] visited) (ordered : Ordered deps order)
    (only : ∀ i ∈ order, i ∈ ids) (covers : ∀ i ∈ ids, i ∈ order) : ∀ i ∈ ids, i ∈ visited := by
  by_contra missed
  push Not at missed
  obtain ⟨missing, inside, absent⟩ := missed
  obtain ⟨i, member, notDone, ready⟩ :=
    ordered_ready ordered (· ∈ visited) ⟨missing, covers missing inside, absent⟩
  have visited' := (sound.queued i (only i member)).mp ready
  exact notDone (by simpa using visited')

theorem validate_graph_accepts (distinct : (steps.map (·.id)).Nodup)
    (checks : ∀ step ∈ steps, checkStep (steps.map (·.id)) step = .ok ()) {order : List String}
    (ordered : Ordered (stepDependsOn steps) order)
    (only : ∀ i ∈ order, i ∈ steps.map (·.id)) (covers : ∀ i ∈ steps.map (·.id), i ∈ order) :
    validateGraph steps = .ok () := by
  obtain ⟨visited, sound, drained⟩ := queue_ends distinct checks
  have all := queue_covers sound ordered only covers
  have atMost := (by simpa using sound.distinct : visited.Nodup).length_le_of_subset
    (by simpa using sound.inside : ∀ i ∈ visited, i ∈ steps.map (·.id))
  have atLeast := distinct.length_le_of_subset all
  unfold validateGraph
  dsimp only
  rw [if_neg (not_not.mpr distinct), for_m_ok.mpr checks, drained _ (by simp)]
  dsimp only
  rw [if_neg]
  omega

theorem validate_graph_iff : validateGraph steps = .ok () ↔ WellFormedGraph steps := by
  refine ⟨fun accepted => well_formed_iff.mpr (validate_graph_ok accepted), fun h => ?_⟩
  obtain ⟨distinct, checks, order, ordered, only, covers⟩ := well_formed_iff.mp h
  exact validate_graph_accepts distinct checks ordered only covers

end Submitted

section Materialized
variable {steps : List WorkflowStep}

theorem member_materialized (runId tool : String) {step : WorkflowStep} (member : step ∈ steps) :
    ∃ d ∈ materialize runId tool steps, d.id = step.id ∧ d.dependsOn = step.dependsOn := by
  have indexed : step ∈ steps.zipIdx.map Prod.fst := by rwa [List.zipIdx_map_fst]
  obtain ⟨⟨found, position⟩, inside, rfl⟩ := List.mem_map.mp indexed
  exact ⟨_, List.mem_map_of_mem inside, rfl, rfl⟩

theorem materialized_nonempty (runId tool : String) (nonempty : steps ≠ []) :
    materialize runId tool steps ≠ [] := by
  intro empty
  have ids := materialized_ids runId steps tool
  rw [empty] at ids
  exact nonempty (by simpa using ids.symm)

/-- What the reducer's validator checks of one definition is what the API checks of its step. -/
theorem materialized_checks (runId tool : String) :
    (∀ d ∈ materialize runId tool steps,
      checkDefinition runId ((materialize runId tool steps).map (·.id)) d = .ok ()) ↔
      ∀ step ∈ steps, checkStep (steps.map (·.id)) step = .ok () := by
  rw [materialized_ids]
  constructor
  · intro checks step member
    obtain ⟨d, inside, sameId, sameDepends⟩ := member_materialized runId tool member
    obtain ⟨_, unique, notSelf, known⟩ := check_definition_ok.mp (checks d inside)
    exact check_step_ok.mpr ⟨sameDepends ▸ unique, sameId ▸ sameDepends ▸ notSelf, sameDepends ▸ known⟩
  · intro checks d member
    obtain ⟨step, inside, sameId, sameDepends, _, _, key⟩ := materialized_mem member
    obtain ⟨unique, notSelf, known⟩ := check_step_ok.mp (checks step inside)
    refine check_definition_ok.mpr ⟨?_, sameDepends ▸ unique, ?_, sameDepends ▸ known⟩
    · rw [key, sameId]
      rfl
    · rw [sameId, sameDepends]
      exact notSelf

theorem validate_definitions_iff (nonempty : steps ≠ []) (runId tool : String) :
    validateDefinitions runId (materialize runId tool steps) = .ok () ↔ WellFormedGraph steps := by
  have ids := materialized_ids runId steps tool
  have depends := materialized_depends runId steps tool
  rw [well_formed_iff]
  constructor
  · intro accepted
    obtain ⟨_, _, distinct, checks, ordering⟩ := validate_definitions_ok accepted
    rw [ids, depends] at ordering
    exact ⟨ids ▸ distinct, (materialized_checks runId tool).mp checks, ordering⟩
  · rintro ⟨distinct, checks, order, ordered, only, covers⟩
    exact validate_definitions_accepts (materialized_nonempty runId tool nonempty)
      (materialized_positions runId steps tool) (ids ▸ distinct)
      ((materialized_checks runId tool).mpr checks) (depends ▸ ordered) (ids ▸ only) (ids ▸ covers)

/-- The rescanning loop: its bound is what the loop condition compares, and the loop is left
    when that reaches zero. -/
theorem visit_ready_while (ids : List String) (remaining : String → List String) (size : Nat)
    (visited : List String) :
    visitReady ids remaining (size - visited.length) visited =
      if visited.length < size then
        match ids.filter fun i => i ∉ visited ∧ ∀ d ∈ remaining i, d ∈ visited with
        | [] => reject "step definitions contain a cycle"
        | first :: _ =>
          visitReady ids remaining (size - (visited.length + 1)) (visited ++ [first])
      else .ok () := by
  split
  · rename_i more
    obtain ⟨rounds, left⟩ := Nat.exists_eq_add_of_lt more
    have now : size - visited.length = rounds + 1 := by omega
    have later : size - (visited.length + 1) = rounds := by omega
    rw [now, later]
    rfl
  · rw [show size - visited.length = 0 by omega]
    rfl

/-- Both validators accept exactly the well-formed graphs. The queue loop ends wherever it is
    reached; the rescanning loop is a while loop whose bound falls by one a round. -/
theorem graph_validators_agree (steps : List WorkflowStep) (nonempty : steps ≠ [])
    (runId toolKey : String) :
    (validateGraph steps = .ok () ↔ WellFormedGraph steps) ∧
    (validateDefinitions runId (materialize runId toolKey steps) = .ok () ↔
      WellFormedGraph steps) ∧
    ((steps.map (·.id)).Nodup → (∀ step ∈ steps, checkStep (steps.map (·.id)) step = .ok ()) →
      ∃ visited, ∀ rounds, steps.length ≤ rounds →
        drainReady (steps.map (·.id)) rounds (stepDependsOn steps)
          ((steps.map (·.id)).filter fun i => stepDependsOn steps i = []) [] = some visited) ∧
    ∀ visited : List String,
      visitReady (steps.map (·.id)) (stepDependsOn steps) (steps.length - visited.length) visited =
        if visited.length < steps.length then
          match (steps.map (·.id)).filter fun i =>
            i ∉ visited ∧ ∀ d ∈ stepDependsOn steps i, d ∈ visited with
          | [] => reject "step definitions contain a cycle"
          | first :: _ =>
            visitReady (steps.map (·.id)) (stepDependsOn steps)
              (steps.length - (visited.length + 1)) (visited ++ [first])
        else .ok () := by
  refine ⟨validate_graph_iff, validate_definitions_iff nonempty runId toolKey, ?_, ?_⟩
  · intro distinct checks
    obtain ⟨visited, _, drained⟩ := queue_ends distinct checks
    exact ⟨visited, drained⟩
  · exact visit_ready_while _ _ _

end Materialized

section Example

def twoBranches : List WorkflowStep :=
  [⟨"notify", ["charge", "provision"], .notify "c-1" "a@b.c" "done"⟩,
    ⟨"charge", [], .charge "c-1" 2500⟩, ⟨"provision", [], .provision "c-1" "standard"⟩]

theorem two_branches_agree :
    WellFormedGraph twoBranches ∧
      validateDefinitions "run" (materialize "run" "mock-tool" twoBranches) = .ok () := by
  have agree := graph_validators_agree twoBranches (by decide) "run" "mock-tool"
  have wellFormed := agree.1.mp (by decide)
  exact ⟨wellFormed, agree.2.1.mpr wellFormed⟩

end Example

end Crashsafe
