import Mathlib

/- Lists that grow at the end, and what each element owes to those before it. -/
namespace Prefixes
variable {α : Type*} {P : List α → α → Prop} {xs more : List α} {x : α}

/-- Every element of the list stands in `P` to the elements before it. -/
def EachAfter (P : List α → α → Prop) (xs : List α) : Prop :=
  ∀ before x after, xs = before ++ x :: after → P before x

@[simp] theorem each_after_nil : EachAfter P [] := by
  intro before x after split
  simp at split

theorem each_after_left (h : EachAfter P (xs ++ more)) : EachAfter P xs :=
  fun before y after split => h before y (after ++ more) (by simp [split])

theorem each_after_snoc : EachAfter P (xs ++ [x]) ↔ EachAfter P xs ∧ P xs x := by
  constructor
  · exact fun h => ⟨each_after_left h, h xs x [] rfl⟩
  · rintro ⟨h, last⟩ before y after split
    rcases List.eq_nil_or_concat after with rfl | ⟨front, z, rfl⟩
    · obtain ⟨rfl, same⟩ := List.append_inj' split rfl
      obtain ⟨rfl, _⟩ := List.cons.inj same
      exact last
    · have cut : xs ++ [x] = (before ++ y :: front) ++ [z] := by simpa using split
      exact h before y front (List.append_inj' cut rfl).1

theorem each_after_append (h : EachAfter P xs)
    (late : ∀ before, ∀ y ∈ more, P before y) : EachAfter P (xs ++ more) := by
  induction more using List.reverseRecOn with
  | nil => simpa using h
  | append_singleton front last ih =>
    rw [← List.append_assoc, each_after_snoc]
    exact ⟨ih fun before y inside => late before y (List.mem_append_left _ inside),
      late _ last (by simp)⟩

end Prefixes
