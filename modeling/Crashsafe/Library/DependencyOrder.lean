import Mathlib
import Crashsafe.Library.Prefixes

/- Orders of a dependency graph. `deps x` lists what must come before `x`. -/
namespace DependencyOrder
open Prefixes
variable {α : Type*} {deps : α → List α}

/-- Everything in the list comes after all it depends on. -/
def Ordered (deps : α → List α) (order : List α) : Prop :=
  ∀ before x after, order = before ++ x :: after → ∀ d ∈ deps x, d ∈ before

@[simp] theorem ordered_nil : Ordered deps [] := each_after_nil

theorem ordered_snoc {order : List α} {x : α} :
    Ordered deps (order ++ [x]) ↔ Ordered deps order ∧ ∀ d ∈ deps x, d ∈ order := each_after_snoc

/-- While something of an ordered list is not done, something not done has all it depends
    on done: the first such element of the order. -/
theorem ordered_ready {order : List α} (ordered : Ordered deps order) (done : α → Prop)
    (unfinished : ∃ x ∈ order, ¬ done x) :
    ∃ x ∈ order, ¬ done x ∧ ∀ d ∈ deps x, done d := by
  induction order using List.reverseRecOn with
  | nil => simp at unfinished
  | append_singleton front last ih =>
    obtain ⟨orderedFront, lastDeps⟩ := ordered_snoc.mp ordered
    by_cases early : ∃ x ∈ front, ¬ done x
    · obtain ⟨x, member, ready⟩ := ih orderedFront early
      exact ⟨x, List.mem_append_left _ member, ready⟩
    · push Not at early
      obtain ⟨x, member, notDone⟩ := unfinished
      rcases List.mem_append.mp member with old | new
      · exact absurd (early x old) notDone
      · rw [List.mem_singleton.mp new] at notDone
        exact ⟨last, by simp, notDone, fun d inside => early d (lastDeps d inside)⟩

/-- Distinct members of a list that number as many as the list are all of it. -/
theorem covers_of_length [DecidableEq α] {xs ids : List α} (distinct : xs.Nodup)
    (inside : ∀ x ∈ xs, x ∈ ids) (full : ids.length ≤ xs.length) : ∀ x ∈ ids, x ∈ xs := by
  have sub := List.subperm_of_subset distinct inside
  exact fun x member => (sub.perm_of_length_le full).mem_iff.mpr member

theorem exists_missing [DecidableEq α] {xs ids : List α} (distinct : ids.Nodup)
    (short : xs.length < ids.length) : ∃ x ∈ ids, x ∉ xs := by
  by_contra none
  push Not at none
  have bound := distinct.length_le_of_subset none
  omega

/-- `x` needs `y`, directly or through others. -/
abbrev Needs (deps : α → List α) : α → α → Prop := Relation.TransGen fun x y => y ∈ deps x

def Acyclic (deps : α → List α) : Prop := ∀ x, ¬ Needs deps x x

theorem needed_earlier [DecidableEq α] {order : List α} (ordered : Ordered deps order) {x d : α}
    (member : x ∈ order) (needed : d ∈ deps x) : order.idxOf d < order.idxOf x := by
  obtain ⟨before, after, split, fresh⟩ := List.eq_append_cons_of_mem member
  have earlier := ordered before x after split d needed
  have position : order.idxOf x = before.length := by
    rw [split, List.idxOf_append_of_notMem fresh]
    simp
  rw [position, split, List.idxOf_append_of_mem earlier]
  exact List.idxOf_lt_length_of_mem earlier

/-- An order that lists everything with dependencies leaves no cycle. -/
theorem acyclic_of_ordered [DecidableEq α] {order : List α} (ordered : Ordered deps order)
    (listed : ∀ x, deps x ≠ [] → x ∈ order) : Acyclic deps := by
  have earlier : ∀ x y, Needs deps x y → order.idxOf y < order.idxOf x := by
    intro x y needs
    induction needs with
    | single needed =>
      exact needed_earlier ordered (listed x (List.ne_nil_of_mem needed)) needed
    | tail _ needed ih =>
      exact lt_trans (needed_earlier ordered (listed _ (List.ne_nil_of_mem needed)) needed) ih
  exact fun x cycle => lt_irrefl _ (earlier x x cycle)

/-- Without a cycle, while something of a list closed under dependencies is not done,
    something not done has all it depends on done. -/
theorem acyclic_ready {ids : List α} (acyclic : Acyclic deps)
    (closed : ∀ x ∈ ids, ∀ d ∈ deps x, d ∈ ids) (done : α → Prop)
    (unfinished : ∃ x ∈ ids, ¬ done x) : ∃ x ∈ ids, ¬ done x ∧ ∀ d ∈ deps x, done d := by
  let earlier : {x // x ∈ ids} → {x // x ∈ ids} → Prop := fun a b => Needs deps b a
  have finite : Finite {x // x ∈ ids} := List.finite_toSet ids
  have transitive : IsTrans _ earlier := ⟨fun a b c first second => second.trans first⟩
  have irreflexive : Std.Irrefl earlier := ⟨fun a => acyclic a⟩
  have founded : WellFounded earlier := Finite.wellFounded_of_trans_of_irrefl earlier
  obtain ⟨x, member, notDone⟩ := unfinished
  obtain ⟨least, leastNotDone, minimal⟩ := founded.has_min {a | ¬ done a} ⟨⟨x, member⟩, notDone⟩
  refine ⟨least, least.2, leastNotDone, fun d needed => ?_⟩
  by_contra open'
  exact minimal ⟨d, closed least least.2 d needed⟩ open' (.single needed)

theorem partial_order_of_acyclic {ids : List α} (distinct : ids.Nodup) (acyclic : Acyclic deps)
    (closed : ∀ x ∈ ids, ∀ d ∈ deps x, d ∈ ids) (n : Nat) (fits : n ≤ ids.length) :
    ∃ order : List α, order.length = n ∧ order.Nodup ∧ (∀ x ∈ order, x ∈ ids) ∧
      Ordered deps order := by
  classical
  induction n with
  | zero => exact ⟨[], rfl, List.nodup_nil, by simp, ordered_nil⟩
  | succ n ih =>
    obtain ⟨order, length, nodup, inside, ordered⟩ := ih (by omega)
    obtain ⟨x, member, fresh, ready⟩ := acyclic_ready acyclic closed (· ∈ order)
      (exists_missing distinct (by omega : order.length < ids.length))
    refine ⟨order ++ [x], by simp [length], ?_, ?_, ordered_snoc.mpr ⟨ordered, ready⟩⟩
    · refine List.nodup_append.mpr ⟨nodup, List.nodup_singleton x, ?_⟩
      intro a old b new same
      rw [same, List.mem_singleton.mp new] at old
      exact fresh old
    · intro y listed
      rcases List.mem_append.mp listed with old | new
      · exact inside y old
      · exact List.mem_singleton.mp new ▸ member

/-- A list closed under dependencies has an order when they have no cycle. -/
theorem order_of_acyclic {ids : List α} (distinct : ids.Nodup) (acyclic : Acyclic deps)
    (closed : ∀ x ∈ ids, ∀ d ∈ deps x, d ∈ ids) :
    ∃ order : List α, Ordered deps order ∧ (∀ x ∈ order, x ∈ ids) ∧ ∀ x ∈ ids, x ∈ order := by
  classical
  obtain ⟨order, length, nodup, inside, ordered⟩ :=
    partial_order_of_acyclic distinct acyclic closed ids.length le_rfl
  exact ⟨order, ordered, inside, covers_of_length nodup inside length.ge⟩

end DependencyOrder
