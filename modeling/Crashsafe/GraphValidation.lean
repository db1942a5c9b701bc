import Crashsafe.Definition
import Crashsafe.HistorySoundness
import Crashsafe.Library.DependencyOrder

/- Both graph validators accept only graphs with a dependency order, and the reducer's
   accepts every graph that has one. -/
namespace Crashsafe
open DependencyOrder

section Reducer
variable {ids visited : List String} {deps : String → List String}

theorem ready_mem {i : String} :
    i ∈ ids.filter (fun i => i ∉ visited ∧ ∀ d ∈ deps i, d ∈ visited) ↔
      i ∈ ids ∧ i ∉ visited ∧ ∀ d ∈ deps i, d ∈ visited := by
  simp

theorem visit_ready_accepts {order : List String} (ordered : Ordered deps order)
    (covers : ∀ i ∈ ids, i ∈ order) (only : ∀ i ∈ order, i ∈ ids) (distinct : ids.Nodup)
    (rounds : Nat) (visited : List String) (left : visited.length + rounds = ids.length) :
    visitReady ids deps rounds visited = .ok () := by
  induction rounds generalizing visited with
  | zero => rfl
  | succ rounds ih =>
    obtain ⟨missing, inside, absent⟩ := exists_missing distinct (by omega : visited.length < ids.length)
    obtain ⟨i, member, notDone, ready⟩ :=
      ordered_ready ordered (· ∈ visited) ⟨missing, covers missing inside, absent⟩
    have candidate := ready_mem.mpr ⟨only i member, notDone, ready⟩
    simp only [visitReady]
    split
    · rename_i empty
      rw [empty] at candidate
      simp at candidate
    · exact ih _ (by simp; omega)

theorem visit_ready_orders (rounds : Nat) (visited : List String) (ordered : Ordered deps visited)
    (distinct : visited.Nodup) (inside : ∀ i ∈ visited, i ∈ ids)
    (left : visited.length + rounds = ids.length)
    (accepted : visitReady ids deps rounds visited = .ok ()) :
    ∃ order, Ordered deps order ∧ (∀ i ∈ order, i ∈ ids) ∧ ∀ i ∈ ids, i ∈ order := by
  induction rounds generalizing visited with
  | zero => exact ⟨visited, ordered, inside, covers_of_length distinct inside (by omega)⟩
  | succ rounds ih =>
    simp only [visitReady] at accepted
    split at accepted
    · cases accepted
    · rename_i first rest found
      have candidate := ready_mem.mp (found ▸ List.mem_cons_self : first ∈ _)
      refine ih (visited ++ [first]) (ordered_snoc.mpr ⟨ordered, candidate.2.2⟩) ?_ ?_ ?_ accepted
      · exact List.nodup_append.mpr ⟨distinct, List.nodup_singleton first, by
          intro a member b new same
          rw [same, List.mem_singleton.mp new] at member
          exact candidate.2.1 member⟩
      · intro i member
        rcases List.mem_append.mp member with old | new
        · exact inside i old
        · rw [List.mem_singleton.mp new]
          exact candidate.1
      · simp
        omega

end Reducer

section Queue
variable {ids : List String} {orig : String → List String}

theorem visit_candidate_fst (current : String) (visited : List String)
    (dependencies : String → List String) (ready : List String) (candidate : String) :
    (visitCandidate current visited (dependencies, ready) candidate).1 =
      Function.update dependencies candidate ((dependencies candidate).erase current) := by
  simp only [visitCandidate]
  split
  · split <;> rfl
  · rename_i absent
    rw [List.erase_of_not_mem absent, Function.update_eq_self]

/-- Which candidate a round adds to the queue. -/
def Freed (current : String) (visited ready : List String) (dependencies : String → List String)
    (candidate : String) : Prop :=
  current ∈ dependencies candidate ∧ (dependencies candidate).erase current = [] ∧
    candidate ∉ visited ∧ candidate ∉ ready

instance (current : String) (visited ready : List String) (dependencies : String → List String)
    (candidate : String) : Decidable (Freed current visited ready dependencies candidate) := by
  unfold Freed
  infer_instance

theorem visit_candidate_snd (current : String) (visited : List String)
    (dependencies : String → List String) (ready : List String) (candidate : String) :
    (visitCandidate current visited (dependencies, ready) candidate).2 =
      ready ++ if Freed current visited ready dependencies candidate then [candidate] else [] := by
  simp only [visitCandidate]
  by_cases freed : Freed current visited ready dependencies candidate
  · rw [if_pos freed, if_pos freed.1, if_pos freed.2]
  · rw [if_neg freed, List.append_nil]
    split
    · rename_i present
      rw [if_neg fun rest => freed ⟨present, rest⟩]
    · rfl

/-- One round of the inner loop, candidate by candidate. -/
theorem visit_candidates (current : String) (visited : List String) (candidates : List String)
    (distinct : candidates.Nodup) (dependencies : String → List String) (ready : List String) :
    (∀ i, (candidates.foldl (visitCandidate current visited) (dependencies, ready)).1 i =
      if i ∈ candidates then (dependencies i).erase current else dependencies i) ∧
    (candidates.foldl (visitCandidate current visited) (dependencies, ready)).2 =
      ready ++ candidates.filter (Freed current visited ready dependencies ·) := by
  induction candidates generalizing dependencies ready with
  | nil => simp
  | cons c rest ih =>
    obtain ⟨fresh, distinctRest⟩ := List.nodup_cons.mp distinct
    have first := visit_candidate_fst current visited dependencies ready c
    have second := visit_candidate_snd current visited dependencies ready c
    obtain ⟨tailDeps, tailReady⟩ := ih distinctRest
      (visitCandidate current visited (dependencies, ready) c).1
      (visitCandidate current visited (dependencies, ready) c).2
    simp only [List.foldl_cons]
    refine ⟨fun i => ?_, ?_⟩
    · rw [tailDeps i, first]
      by_cases same : i = c
      · subst same
        simp [fresh]
      · simp [same]
    · have agree : rest.filter (Freed current visited
          (visitCandidate current visited (dependencies, ready) c).2
          (visitCandidate current visited (dependencies, ready) c).1 ·) =
          rest.filter (Freed current visited ready dependencies ·) := by
        apply List.filter_congr
        intro x member
        have differs : x ≠ c := fun same => fresh (same ▸ member)
        have sameQueue : x ∈ (visitCandidate current visited (dependencies, ready) c).2 ↔
            x ∈ ready := by
          rw [second]
          split <;> simp [differs]
        simp only [first, Freed, Function.update_of_ne differs, sameQueue]
      rw [tailReady, agree, second, List.filter_cons]
      by_cases freed : Freed current visited ready dependencies c <;> simp [freed]

/-- The queue holds what is ready and not visited; `visited` is in dependency order. -/
structure QueueSound (ids : List String) (orig dependencies : String → List String)
    (ready visited : List String) : Prop where
  distinct : (visited ++ ready).Nodup
  inside : ∀ i ∈ visited ++ ready, i ∈ ids
  left : ∀ i ∈ ids, dependencies i = (orig i).filter fun d => d ∉ visited
  queued : ∀ i ∈ ids, (∀ d ∈ orig i, d ∈ visited) ↔ i ∈ visited ++ ready
  ordered : Ordered orig visited

theorem queue_start (distinct : ids.Nodup) :
    QueueSound ids orig orig (ids.filter fun i => orig i = []) [] := by
  refine ⟨by simpa using distinct.filter _, ?_, by simp, ?_, ordered_nil⟩
  · intro i member
    exact (by simpa using member : i ∈ ids ∧ orig i = []).1
  · intro i member
    simp [member, List.eq_nil_iff_forall_not_mem]

theorem queue_round {current : String} {dependencies : String → List String}
    {ready visited : List String} (distinct : ids.Nodup) (unique : ∀ i, (orig i).Nodup)
    (h : QueueSound ids orig dependencies (current :: ready) visited) :
    QueueSound ids orig
      (ids.foldl (visitCandidate current (visited ++ [current])) (dependencies, ready)).1
      (ids.foldl (visitCandidate current (visited ++ [current])) (dependencies, ready)).2
      (visited ++ [current]) := by
  obtain ⟨deps', ready'⟩ := visit_candidates current (visited ++ [current]) ids distinct dependencies ready
  have regroup : visited ++ current :: ready = visited ++ [current] ++ ready := by simp
  have oldDistinct := regroup ▸ h.distinct
  have oldInside := regroup ▸ h.inside
  have notVisited : current ∉ visited := by
    have split := List.nodup_append.mp h.distinct
    exact fun member => split.2.2 current member current List.mem_cons_self rfl
  have left' : ∀ i ∈ ids, (dependencies i).erase current =
      (orig i).filter fun d => d ∉ visited ++ [current] := by
    intro i member
    rw [h.left i member, ((unique i).filter _).erase_eq_filter, List.filter_filter]
    apply List.filter_congr
    intro d _
    by_cases same : d = current <;> simp [same]
  have done : ∀ i ∈ ids, (dependencies i).erase current = [] ↔
      ∀ d ∈ orig i, d ∈ visited ++ [current] := by
    intro i member
    rw [left' i member]
    simp only [List.filter_eq_nil_iff, decide_eq_true_eq, not_not]
  refine ⟨?_, ?_, ?_, ?_, ?_⟩
  · rw [ready', ← List.append_assoc]
    refine List.nodup_append.mpr ⟨oldDistinct, distinct.filter _, ?_⟩
    intro a old b new same
    have freed : Freed current (visited ++ [current]) ready dependencies b := by
      simpa using (List.mem_filter.mp new).2
    subst same
    rcases List.mem_append.mp old with h' | h'
    · exact freed.2.2.1 h'
    · exact freed.2.2.2 h'
  · intro i member
    rw [ready', ← List.append_assoc] at member
    rcases List.mem_append.mp member with old | new
    · exact oldInside i old
    · exact List.mem_of_mem_filter new
  · intro i member
    rw [deps' i, if_pos member, left' i member]
  · intro i member
    rw [ready', ← List.append_assoc, List.mem_append, List.mem_filter]
    have before := h.queued i member
    rw [regroup] at before
    constructor
    · intro all
      by_cases old : i ∈ visited ++ [current] ++ ready
      · exact Or.inl old
      · refine Or.inr ⟨member, ?_⟩
        have notYet := mt before.mp old
        push Not at notYet
        obtain ⟨d, inside, missing⟩ := notYet
        have isCurrent : d = current := by
          rcases List.mem_append.mp (all d inside) with h' | h'
          · exact absurd h' missing
          · exact List.mem_singleton.mp h'
        have present : current ∈ dependencies i := by
          rw [h.left i member, List.mem_filter]
          exact ⟨isCurrent ▸ inside, by simpa using notVisited⟩
        simp only [decide_eq_true_eq]
        exact ⟨present, (done i member).mpr all,
          fun h' => old (List.mem_append_left _ h'), fun h' => old (List.mem_append_right _ h')⟩
    · rintro (old | ⟨_, freed⟩)
      · exact fun d inside => List.mem_append_left _ (before.mpr old d inside)
      · have freed : Freed current (visited ++ [current]) ready dependencies i := by simpa using freed
        exact (done i member).mp freed.2.1
  · refine ordered_snoc.mpr ⟨h.ordered, ?_⟩
    exact (h.queued current (h.inside current (by simp))).mpr (by simp)

/-- The loop ends within its rounds, and what it visited is in dependency order. -/
theorem drain_ready_sound (distinct : ids.Nodup) (unique : ∀ i, (orig i).Nodup) (rounds : Nat)
    (dependencies : String → List String) (ready visited : List String)
    (h : QueueSound ids orig dependencies ready visited)
    (enough : ids.length ≤ rounds + visited.length) :
    ∃ order, drainReady ids rounds dependencies ready visited = some order ∧
      QueueSound ids orig (fun i => (orig i).filter fun d => d ∉ order) [] order := by
  induction rounds generalizing dependencies ready visited with
  | zero =>
    cases ready with
    | nil =>
      refine ⟨visited, by simp [drainReady], ?_⟩
      exact ⟨h.distinct, h.inside, fun _ _ => rfl, h.queued, h.ordered⟩
    | cons current ready =>
      have bound := h.distinct.length_le_of_subset h.inside
      simp at bound
      omega
  | succ rounds ih =>
    cases ready with
    | nil =>
      refine ⟨visited, by simp [drainReady], ?_⟩
      exact ⟨h.distinct, h.inside, fun _ _ => rfl, h.queued, h.ordered⟩
    | cons current ready =>
      simp only [drainReady]
      exact ih _ _ _ (queue_round distinct unique h) (by simp; omega)

end Queue

theorem for_m_ok {α ε : Type} {f : α → Except ε Unit} {items : List α} :
    items.forM f = .ok () ↔ ∀ x ∈ items, f x = .ok () := by
  induction items with
  | nil => simp [List.forM, pure, Except.pure]
  | cons x rest ih =>
    rw [show (x :: rest).forM f = (f x >>= fun _ => rest.forM f) from rfl]
    simp only [List.mem_cons, forall_eq_or_imp, ← ih]
    cases f x <;> simp [bind, Except.bind]

theorem check_step_ok {known : List String} {step : WorkflowStep} :
    checkStep known step = .ok () ↔
      step.dependsOn.Nodup ∧ step.id ∉ step.dependsOn ∧ ∀ d ∈ step.dependsOn, d ∈ known := by
  unfold checkStep
  constructor
  · intro h
    split at h
    · cases h
    rename_i distinct
    split at h
    · cases h
    rename_i notSelf
    split at h
    · cases h
    rename_i noneMissing
    refine ⟨by simpa using distinct, notSelf, ?_⟩
    simpa [List.filter_eq_nil_iff] using noneMissing
  · rintro ⟨distinct, notSelf, known⟩
    rw [if_neg (not_not.mpr distinct), if_neg notSelf, if_neg]
    simpa [List.filter_eq_nil_iff] using known

theorem check_definition_ok {runId : String} {known : List String} {definition : StepDefinition} :
    checkDefinition runId known definition = .ok () ↔
      definition.operationKey = s!"{runId}:{definition.id}" ∧ definition.dependsOn.Nodup ∧
        definition.id ∉ definition.dependsOn ∧ ∀ d ∈ definition.dependsOn, d ∈ known := by
  unfold checkDefinition
  constructor
  · intro h
    split at h
    · cases h
    rename_i key
    split at h
    · cases h
    rename_i distinct
    split at h
    · cases h
    rename_i dependency
    push Not at key distinct dependency
    exact ⟨key, distinct, dependency.1, dependency.2⟩
  · rintro ⟨key, distinct, notSelf, known⟩
    rw [if_neg (not_not.mpr key), if_neg (not_not.mpr distinct), if_neg]
    push Not
    exact ⟨notSelf, known⟩

/-- What an accepted definition provides: well-formed steps and an order to run them in. -/
theorem validate_graph_ok {steps : List WorkflowStep} (h : validateGraph steps = .ok ()) :
    (steps.map (·.id)).Nodup ∧ (∀ step ∈ steps, checkStep (steps.map (·.id)) step = .ok ()) ∧
      ∃ order, Ordered (stepDependsOn steps) order ∧ (∀ i ∈ order, i ∈ steps.map (·.id)) ∧
        ∀ i ∈ steps.map (·.id), i ∈ order := by
  unfold validateGraph at h
  dsimp only at h
  split at h
  · cases h
  rename_i distinct
  rw [not_not] at distinct
  split at h
  · cases h
  rename_i checked
  have checks := for_m_ok.mp checked
  have unique : ∀ i, (stepDependsOn steps i).Nodup := by
    intro i
    unfold stepDependsOn
    split
    · rename_i step found
      exact (check_step_ok.mp (checks step (List.mem_of_find?_eq_some found))).1
    · simp
  obtain ⟨order, drained, sound⟩ := drain_ready_sound distinct unique (steps.map (·.id)).length
    (stepDependsOn steps) _ [] (queue_start distinct) (by simp)
  rw [drained] at h
  dsimp only at h
  split at h
  · cases h
  rename_i full
  refine ⟨distinct, checks, order, sound.ordered, by simpa using sound.inside, ?_⟩
  refine covers_of_length (by simpa using sound.distinct) (by simpa using sound.inside) ?_
  omega

/-- What the reducer's validator provides on acceptance. -/
theorem validate_definitions_ok {runId : String} {definitions : List StepDefinition}
    (h : validateDefinitions runId definitions = .ok ()) :
    definitions ≠ [] ∧
      definitions.map (·.position) = (List.range definitions.length).map Int.ofNat ∧
      (definitions.map (·.id)).Nodup ∧
      (∀ definition ∈ definitions,
        checkDefinition runId (definitions.map (·.id)) definition = .ok ()) ∧
      ∃ order, Ordered (dependsOnOf definitions) order ∧
        (∀ i ∈ order, i ∈ definitions.map (·.id)) ∧ ∀ i ∈ definitions.map (·.id), i ∈ order := by
  unfold validateDefinitions at h
  dsimp only at h
  split at h
  · cases h
  rename_i nonempty
  split at h
  · cases h
  rename_i positions
  split at h
  · cases h
  rename_i distinct
  rw [not_not] at positions distinct
  split at h
  · cases h
  rename_i checked
  refine ⟨nonempty, positions, distinct, for_m_ok.mp checked, ?_⟩
  exact visit_ready_orders definitions.length [] ordered_nil (by simp) (by simp) (by simp) h

theorem validate_definitions_accepts {runId : String} {definitions : List StepDefinition}
    {order : List String} (nonempty : definitions ≠ [])
    (positions : definitions.map (·.position) = (List.range definitions.length).map Int.ofNat)
    (distinct : (definitions.map (·.id)).Nodup)
    (checked : ∀ definition ∈ definitions,
      checkDefinition runId (definitions.map (·.id)) definition = .ok ())
    (ordered : Ordered (dependsOnOf definitions) order)
    (only : ∀ i ∈ order, i ∈ definitions.map (·.id))
    (covers : ∀ i ∈ definitions.map (·.id), i ∈ order) :
    validateDefinitions runId definitions = .ok () := by
  have visits := visit_ready_accepts ordered covers only distinct definitions.length [] (by simp)
  unfold validateDefinitions
  dsimp only
  rw [if_neg nonempty, if_neg (not_not.mpr positions), if_neg (not_not.mpr distinct),
    for_m_ok.mpr checked]
  exact visits

end Crashsafe
