import Crashsafe.Library.DependencyOrder

/- The order of a dependency graph in which the first ready element of a list comes next. -/
namespace GreedyOrder
open DependencyOrder Prefixes
variable {α : Type*} [DecidableEq α]

/-- The first element of the list that is not done and has all it depends on done. -/
def nextReady (deps : α → List α) (ids done : List α) : Option α :=
  ids.find? fun x => x ∉ done ∧ ∀ d ∈ deps x, d ∈ done

def greedyFrom (deps : α → List α) (ids : List α) : Nat → List α → List α
  | 0, done => done
  | rounds + 1, done =>
    match nextReady deps ids done with
    | none => done
    | some x => greedyFrom deps ids rounds (done ++ [x])

def greedyOrder (deps : α → List α) (ids : List α) : List α := greedyFrom deps ids ids.length []

/-- Each element was the next one when its turn came. -/
def Greedy (deps : α → List α) (ids done : List α) : Prop :=
  EachAfter (fun before x => nextReady deps ids before = some x) done

variable {deps : α → List α} {ids done before after : List α} {x : α}

theorem next_ready_some (h : nextReady deps ids done = some x) :
    x ∈ ids ∧ x ∉ done ∧ ∀ d ∈ deps x, d ∈ done := by
  have ready := List.find?_some h
  simp only [decide_eq_true_eq] at ready
  exact ⟨List.mem_of_find?_eq_some h, ready⟩

theorem next_ready_none (h : nextReady deps ids done = none) (member : x ∈ ids) (fresh : x ∉ done) :
    ∃ d ∈ deps x, d ∉ done := by
  have blocked := List.find?_eq_none.mp h x member
  simpa [fresh] using blocked

/-- An element is next when it is ready and nothing before it in the list is. -/
theorem next_ready_of_first (before after : List α) (split : ids = before ++ x :: after) (fresh : x ∉ done)
    (ready : ∀ d ∈ deps x, d ∈ done)
    (first : ∀ y ∈ before, y ∉ done → ∃ d ∈ deps y, d ∉ done) : nextReady deps ids done = some x := by
  refine List.find?_eq_some_iff_append.mpr ⟨by simpa using ⟨fresh, ready⟩, before, after, split, ?_⟩
  intro y member
  simpa [or_iff_not_imp_left] using first y member

@[simp] theorem greedy_nil : Greedy deps ids [] := each_after_nil

theorem greedy_snoc :
    Greedy deps ids (done ++ [x]) ↔ Greedy deps ids done ∧ nextReady deps ids done = some x :=
  each_after_snoc

theorem greedy_at (greedy : Greedy deps ids (before ++ x :: after)) :
    nextReady deps ids before = some x := greedy before x after rfl

theorem greedy_distinct (greedy : Greedy deps ids done) : done.Nodup ∧ ∀ x ∈ done, x ∈ ids := by
  induction done using List.reverseRecOn with
  | nil => simp
  | append_singleton front last ih =>
    obtain ⟨greedy, next⟩ := greedy_snoc.mp greedy
    obtain ⟨distinct, inside⟩ := ih greedy
    obtain ⟨member, fresh, _⟩ := next_ready_some next
    constructor
    · refine List.nodup_append.mpr ⟨distinct, List.nodup_singleton last, fun a old b new => ?_⟩
      rintro rfl
      exact fresh (List.mem_singleton.mp new ▸ old)
    · intro x listed
      rcases List.mem_append.mp listed with old | new
      · exact inside x old
      · exact List.mem_singleton.mp new ▸ member

/-- Of two greedy lists one continues the other. -/
theorem greedy_comparable {xs ys : List α} (left : Greedy deps ids xs) (right : Greedy deps ids ys)
    (shorter : xs.length ≤ ys.length) : xs <+: ys := by
  induction xs using List.reverseRecOn with
  | nil => exact List.nil_prefix
  | append_singleton front last ih =>
    obtain ⟨left, next⟩ := greedy_snoc.mp left
    rw [List.length_append, List.length_singleton] at shorter
    obtain ⟨rest, rfl⟩ := ih left (by omega)
    cases rest with
    | nil => simp at shorter
    | cons y rest =>
      have same := greedy_at right
      rw [next, Option.some.injEq] at same
      subst same
      exact ⟨rest, by simp⟩

/-- Enough rounds take all that can be taken. -/
theorem greedy_from_maximal {rounds : Nat} (greedy : Greedy deps ids done)
    (enough : ids.length ≤ done.length + rounds) :
    Greedy deps ids (greedyFrom deps ids rounds done) ∧
      nextReady deps ids (greedyFrom deps ids rounds done) = none := by
  induction rounds generalizing done with
  | zero =>
    refine ⟨greedy, ?_⟩
    obtain ⟨distinct, inside⟩ := greedy_distinct greedy
    have covered := covers_of_length distinct inside enough
    refine List.find?_eq_none.mpr fun x member => ?_
    simp only [greedyFrom, covered x member]
    simp
  | succ rounds ih =>
    unfold greedyFrom
    cases next : nextReady deps ids done with
    | none => exact ⟨greedy, next⟩
    | some x =>
      have left : ids.length ≤ (done ++ [x]).length + rounds := by
        rw [List.length_append, List.length_singleton]
        omega
      exact ih (greedy_snoc.mpr ⟨greedy, next⟩) left

theorem greedy_order_maximal (deps : α → List α) (ids : List α) : Greedy deps ids (greedyOrder deps ids) ∧
    nextReady deps ids (greedyOrder deps ids) = none :=
  greedy_from_maximal greedy_nil (by simp)

theorem greedy_begins (greedy : Greedy deps ids done) : done <+: greedyOrder deps ids := by
  obtain ⟨maximal, stuck⟩ := greedy_order_maximal deps ids
  rcases Nat.le_total done.length (greedyOrder deps ids).length with shorter | longer
  · exact greedy_comparable greedy maximal shorter
  · obtain ⟨rest, same⟩ := greedy_comparable maximal greedy longer
    cases rest with
    | nil => exact ⟨[], by simpa using same.symm⟩
    | cons y rest =>
      rw [greedy_at (same ▸ greedy)] at stuck
      cases stuck

/-- What is next is what the order has at that place. -/
theorem greedy_next (greedy : Greedy deps ids done) (next : nextReady deps ids done = some x) :
    (greedyOrder deps ids)[done.length]? = some x := by
  obtain ⟨rest, same⟩ := greedy_begins (greedy_snoc.mpr ⟨greedy, next⟩)
  rw [← same]
  simp

theorem greedy_complete (greedy : Greedy deps ids done) (all : ∀ x ∈ ids, x ∈ done) :
    done = greedyOrder deps ids := by
  obtain ⟨rest, same⟩ := greedy_begins greedy
  cases rest with
  | nil => simpa using same
  | cons y rest =>
    have next := greedy_at (same ▸ (greedy_order_maximal deps ids).1)
    obtain ⟨member, fresh, _⟩ := next_ready_some next
    exact absurd (all y member) fresh

/-- In a graph that has an order at all, the greedy order takes every element. -/
theorem greedy_covers {order : List α} (ordered : Ordered deps order) (listed : ∀ y ∈ order, y ∈ ids)
    (covers : ∀ y ∈ ids, y ∈ order) : ∀ y ∈ ids, y ∈ greedyOrder deps ids := by
  intro y member
  by_contra missing
  obtain ⟨x, inside, fresh, ready⟩ :=
    ordered_ready ordered (· ∈ greedyOrder deps ids) ⟨y, covers y member, missing⟩
  obtain ⟨d, needed, absent⟩ := next_ready_none (greedy_order_maximal deps ids).2 (listed x inside) fresh
  exact absent (ready d needed)

end GreedyOrder
