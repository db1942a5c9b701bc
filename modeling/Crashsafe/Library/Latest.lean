import Mathlib

/- The last of the greatest entries of a log. Reading the log entry by entry, a new entry
   takes over unless it is smaller. -/
namespace Latest
variable {α κ : Type*} [LinearOrder κ] {key : α → κ} {log : List α} {m x : α}

/-- `m` has the greatest key of the log and no later entry has as great a one. -/
def IsLatestGreatest (key : α → κ) (log : List α) (m : α) : Prop :=
  ∃ before after, log = before ++ m :: after ∧ (∀ x ∈ before, key x ≤ key m) ∧
    ∀ x ∈ after, key x < key m

theorem latest_singleton (m : α) : IsLatestGreatest key [m] m :=
  ⟨[], [], rfl, by simp, by simp⟩

theorem latest_mem (h : IsLatestGreatest key log m) : m ∈ log := by
  obtain ⟨before, after, split, _⟩ := h
  simp [split]

theorem latest_bound (h : IsLatestGreatest key log m) : ∀ x ∈ log, key x ≤ key m := by
  obtain ⟨before, after, split, earlier, later⟩ := h
  intro x member
  rw [split] at member
  rcases List.mem_append.mp member with first | rest
  · exact earlier x first
  · rcases List.mem_cons.mp rest with rfl | last
    · exact le_rfl
    · exact le_of_lt (later x last)

theorem latest_snoc_greater (h : IsLatestGreatest key log m) (le : key m ≤ key x) :
    IsLatestGreatest key (log ++ [x]) x :=
  ⟨log, [], rfl, fun y member => (latest_bound h y member).trans le, by simp⟩

theorem latest_snoc_smaller (h : IsLatestGreatest key log m) (lt : key x < key m) :
    IsLatestGreatest key (log ++ [x]) m := by
  obtain ⟨before, after, split, earlier, later⟩ := h
  refine ⟨before, after ++ [x], by simp [split], earlier, fun y member => ?_⟩
  rcases List.mem_append.mp member with old | new
  · exact later y old
  · rwa [List.mem_singleton.mp new]

theorem latest_isGreatest (h : IsLatestGreatest key log m) :
    IsGreatest {k | ∃ x ∈ log, key x = k} (key m) := by
  refine ⟨⟨m, latest_mem h, rfl⟩, ?_⟩
  rintro k ⟨x, member, rfl⟩
  exact latest_bound h x member

end Latest
