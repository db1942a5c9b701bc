import Crashsafe.Library.Rows

/- Two things SQLite does with the rows of a table: choosing them by `LIKE`, and counting them
   with `GROUP BY`. -/
namespace Queries
open Rows

/-- `LIKE` without an escape: `%` is any text, `_` any character, and ASCII letters match in
    either case. -/
def like : List Char → List Char → Bool
  | [], text => text.isEmpty
  | p :: pattern, text =>
    if p = '%' then text.tails.any (like pattern)
    else
      match text with
      | [] => false
      | c :: rest => (p = '_' || p.toLower = c.toLower) && like pattern rest

def Plain (pattern : List Char) : Prop := ∀ c ∈ pattern, c ≠ '%' ∧ c ≠ '_'

/-- A plain text and a final `%` match what begins with the text, up to case. -/
theorem like_begins {pattern text : List Char} (plain : Plain pattern) :
    like (pattern ++ ['%']) text = true ↔
      ∃ head rest, text = head ++ rest ∧ head.map Char.toLower = pattern.map Char.toLower := by
  induction pattern generalizing text with
  | nil =>
    simp only [List.nil_append, like, ↓reduceIte, List.map_nil, List.map_eq_nil_iff]
    constructor
    · exact fun _ => ⟨[], text, rfl, rfl⟩
    · exact fun _ => List.any_eq_true.mpr ⟨[], (List.mem_tails _ _).mpr List.nil_suffix, rfl⟩
  | cons p pattern ih =>
    obtain ⟨notMany, notOne⟩ := plain p List.mem_cons_self
    have rest : Plain pattern := fun c member => plain c (List.mem_cons_of_mem p member)
    cases text with
    | nil => simp [like, notMany]
    | cons c text =>
      simp only [List.cons_append, like, notMany, notOne, ↓reduceIte, decide_false, Bool.false_or,
        Bool.and_eq_true, decide_eq_true_eq, ih rest]
      constructor
      · rintro ⟨same, head, tail, rfl, lower⟩
        exact ⟨c :: head, tail, rfl, by simp [same, lower]⟩
      · rintro ⟨head, tail, split, lower⟩
        cases head with
        | nil => simp at lower
        | cons first head =>
          obtain ⟨rfl, rfl⟩ := List.cons.inj split
          simp only [List.map_cons, List.cons.injEq] at lower
          exact ⟨lower.1.symm, head, tail, rfl, lower.2⟩

/-- The prefix is the one before a separator that neither side has before it. -/
theorem like_before_separator {c : Char} {name name' rest : List Char} (plain : Plain (name ++ [c]))
    (folded : ∀ x ∈ name ++ [c], x.toLower = x) (folded' : ∀ x ∈ name', x.toLower = x)
    (absent : c ∉ name) (absent' : c ∉ name') :
    like (name ++ [c] ++ ['%']) (name' ++ c :: rest) = true ↔ name' = name := by
  rw [like_begins plain]
  have pattern : (name ++ [c]).map Char.toLower = name ++ [c] :=
    (List.map_congr_left folded).trans (List.map_id _)
  rw [pattern]
  constructor
  · rintro ⟨head, tail, split, lower⟩
    have ends : c ∈ head.map Char.toLower := by simp [lower]
    have outside : ¬ head <+: name' := by
      intro before
      obtain ⟨x, member, same⟩ := List.mem_map.mp ends
      rw [folded' x (before.subset member)] at same
      exact absent' (same ▸ before.subset member)
    rcases List.append_eq_append_iff.mp split with ⟨more, longer, tail'⟩ | ⟨more, shorter, _⟩
    · cases more with
      | nil => exact absurd ⟨[], by simpa using longer⟩ outside
      | cons x more =>
        obtain ⟨rfl, _⟩ := List.cons.inj tail'
        rw [longer, List.map_append, List.map_cons, (List.map_congr_left folded').trans (List.map_id _),
          folded c (by simp)] at lower
        have before : ∀ xs ys : List Char, c ∉ xs → (xs ++ c :: ys).takeWhile (· ≠ c) = xs := by
          intro xs ys none
          rw [List.takeWhile_append_of_pos fun x inside => by
            simpa using fun same : x = c => none (same ▸ inside)]
          simp
        rw [← before name' (more.map Char.toLower) absent', lower, before name _ absent]
    · exact absurd ⟨more, shorter.symm⟩ outside
  · rintro rfl
    exact ⟨name' ++ [c], rest, by simp, pattern⟩

variable {α κ : Type*} [DecidableEq κ]

/-- A key that selects one row at most is a key. -/
theorem keys_distinct {key : α → κ} {rows : List α} (single : ∀ k, (ofKey key k rows).length ≤ 1) :
    (rows.map key).Nodup := by
  refine List.nodup_iff_count_le_one.mpr fun k => ?_
  rw [List.count_eq_countP, List.countP_map]
  have same : rows.countP ((fun x => x == k) ∘ key) = (ofKey key k rows).length := by
    rw [ofKey, ← List.countP_eq_length_filter]
    exact List.countP_congr fun r _ => by simp
  exact same.trans_le (single k)

/-- `SELECT key, COUNT(*) ... GROUP BY key`. -/
def groupCount (key : α → κ) (rows : List α) : List (κ × Nat) :=
  (rows.map key).dedup.map fun k => (k, rows.countP fun r => key r = k)

/-- A key that no group has counts as none. -/
theorem lookup_groupCount (key : α → κ) (rows : List α) (k : κ) :
    ((groupCount key rows).lookup k).getD 0 = rows.countP fun r => key r = k := by
  have found : ∀ keys : List κ, ((keys.map fun k => (k, rows.countP fun r => key r = k)).lookup k) =
      if k ∈ keys then some (rows.countP fun r => key r = k) else none := by
    intro keys
    induction keys with
    | nil => rfl
    | cons other keys ih =>
      rw [List.map_cons, List.lookup_cons, ih]
      by_cases same : k = other
      · simp [same]
      · have differs : (k == other) = false := beq_false_of_ne same
        simp [same, differs]
  rw [groupCount, found]
  split
  · rfl
  · rename_i absent
    symm
    rw [Option.getD_none, List.countP_eq_zero]
    intro r member
    rw [decide_eq_true_eq]
    rintro rfl
    exact absent (List.mem_dedup.mpr (List.mem_map_of_mem member))

end Queries
