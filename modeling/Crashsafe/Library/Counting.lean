import Mathlib

/- Counting the members of a list key by key, and those a sublist leaves out. -/
namespace Counting
variable {α κ : Type*} [DecidableEq κ]

theorem sum_indicator (p : α → Bool) (xs : List α) :
    (xs.map fun x => if p x then 1 else 0).sum = xs.countP p := by
  induction xs with
  | nil => rfl
  | cons x xs ih =>
    rw [List.map_cons, List.sum_cons, ih, List.countP_cons]
    omega

/-- One of distinct keys is the given one, if it is there. -/
theorem sum_same_key {keys : List κ} (distinct : keys.Nodup) {k : κ} (member : k ∈ keys) :
    (keys.map fun other => if k = other then 1 else 0).sum = 1 := by
  have indicator := sum_indicator (fun other => decide (k = other)) keys
  simp only [decide_eq_true_eq] at indicator
  calc (keys.map fun other => if k = other then 1 else 0).sum
      = keys.countP fun other => decide (k = other) := indicator
    _ = keys.count k := by
        rw [List.count_eq_countP]
        apply List.countP_congr
        intro other _
        rw [decide_eq_true_eq, beq_iff_eq]
        exact eq_comm
    _ = 1 := List.count_eq_one_of_mem distinct member

/-- The members that satisfy `p` are those of the first key, those of the second, and so on. -/
theorem countP_keys {p : α → Bool} {key : α → κ} {keys : List κ} (distinct : keys.Nodup)
    {xs : List α} (keyed : ∀ x ∈ xs, p x = true → key x ∈ keys) :
    xs.countP p = (keys.map fun k => xs.countP fun x => p x && decide (key x = k)).sum := by
  induction xs with
  | nil => simp
  | cons x xs ih =>
    have rest := ih fun y member => keyed y (List.mem_cons_of_mem x member)
    simp only [List.countP_cons, List.sum_map_add, ← rest]
    congr 1
    by_cases selected : p x = true
    · have one := sum_same_key distinct (keyed x List.mem_cons_self selected)
      simpa [selected] using one.symm
    · simp [selected]

/-- Leaving out the members of a sublist leaves the difference of the lengths. -/
theorem count_left_out [DecidableEq α] {xs ys : List α} (distinct : xs.Nodup) (distinct' : ys.Nodup)
    (inside : ∀ y ∈ ys, y ∈ xs) : (xs.countP fun x => decide (x ∉ ys)) + ys.length = xs.length := by
  have kept : (xs.filter fun x => decide (x ∈ ys)).Perm ys := by
    apply (List.perm_ext_iff_of_nodup (distinct.filter _) distinct').mpr
    intro x
    simp only [List.mem_filter, decide_eq_true_eq]
    exact ⟨fun both => both.2, fun member => ⟨inside x member, member⟩⟩
  have split := List.length_eq_countP_add_countP (fun x => decide (x ∈ ys)) (l := xs)
  rw [List.countP_eq_length_filter, kept.length_eq] at split
  rw [split, Nat.add_comm]
  simp

end Counting
