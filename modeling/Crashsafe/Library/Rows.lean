import Mathlib

/- Tables as lists of rows in insertion order, with the few statements SQL needs:
   select by key, update, delete and order. -/
namespace Rows
variable {α κ : Type*}

def ofKey [DecidableEq κ] (key : α → κ) (k : κ) (rows : List α) : List α :=
  rows.filter fun r => key r = k

def updateWhere (p : α → Bool) (f : α → α) (rows : List α) : List α :=
  rows.map fun r => if p r then f r else r

def deleteWhere (p : α → Bool) (rows : List α) : List α :=
  rows.filter fun r => !p r

/-- `INSERT ... ON CONFLICT(key) DO UPDATE`: `merge old new` is the row that replaces. -/
def upsert [DecidableEq κ] (key : α → κ) (merge : α → α → α) (row : α) (rows : List α) : List α :=
  if rows.any fun r => key r = key row then
    updateWhere (fun r => key r = key row) (fun old => merge old row) rows
  else rows ++ [row]

def orderBy (key : α → Int) (rows : List α) : List α :=
  rows.insertionSort fun a b => key a ≤ key b

section
variable [DecidableEq κ] {key : α → κ} {k : κ}

@[simp] theorem mem_ofKey {rows : List α} {r : α} : r ∈ ofKey key k rows ↔ r ∈ rows ∧ key r = k := by
  simp [ofKey]

@[simp] theorem ofKey_nil : ofKey key k [] = [] := rfl

theorem ofKey_append (xs ys : List α) : ofKey key k (xs ++ ys) = ofKey key k xs ++ ofKey key k ys := by
  simp [ofKey]

theorem ofKey_all {rows : List α} (all : ∀ r ∈ rows, key r = k) : ofKey key k rows = rows := by
  simpa [ofKey] using all

theorem ofKey_none {rows : List α} (none : ∀ r ∈ rows, key r ≠ k) : ofKey key k rows = [] := by
  simpa [ofKey] using none

theorem ofKey_unique {rows : List α} (distinct : (rows.map key).Nodup) {r : α} (member : r ∈ rows) :
    ofKey key (key r) rows = [r] := by
  induction rows with
  | nil => cases member
  | cons first rest ih =>
    rw [List.map_cons, List.nodup_cons] at distinct
    rcases List.mem_cons.mp member with rfl | later
    · have none : ofKey key (key r) rest = [] := ofKey_none fun other inside same =>
        distinct.1 (List.mem_map.mpr ⟨other, inside, same⟩)
      calc ofKey key (key r) (r :: rest)
          = ofKey key (key r) [r] ++ ofKey key (key r) rest := ofKey_append [r] rest
        _ = [r] := by rw [none, List.append_nil, ofKey_all (by simp)]
    · have other : key first ≠ key r := fun same =>
        distinct.1 (List.mem_map.mpr ⟨r, later, same.symm⟩)
      calc ofKey key (key r) (first :: rest)
          = ofKey key (key r) [first] ++ ofKey key (key r) rest := ofKey_append [first] rest
        _ = [r] := by rw [ih distinct.2 later, ofKey_none (by simpa using other), List.nil_append]

theorem ofKey_append_same {xs ys : List α} (same : ∀ r ∈ ys, key r = k) :
    ofKey key k (xs ++ ys) = ofKey key k xs ++ ys := by
  rw [ofKey_append, ofKey_all same]

theorem ofKey_append_other {xs ys : List α} (other : ∀ r ∈ ys, key r ≠ k) :
    ofKey key k (xs ++ ys) = ofKey key k xs := by
  rw [ofKey_append, ofKey_none other, List.append_nil]

theorem ofKey_updateWhere {p : α → Bool} {f : α → α} (keeps : ∀ r, p r = true → key (f r) = key r)
    (rows : List α) : ofKey key k (updateWhere p f rows) = updateWhere p f (ofKey key k rows) := by
  induction rows with
  | nil => rfl
  | cons r rest ih =>
    have same : key (if p r then f r else r) = key r := by
      split
      · exact keeps r ‹_›
      · rfl
    simp only [ofKey, updateWhere, List.map_cons, List.filter_cons, same] at ih ⊢
    split
    · simp [ih]
    · exact ih

theorem updateWhere_none {p : α → Bool} {f : α → α} {rows : List α}
    (none : ∀ r ∈ rows, p r = false) : updateWhere p f rows = rows := by
  refine (List.map_congr_left fun r member => ?_).trans (List.map_id rows)
  simp [none r member]

theorem updateWhere_congr {p q : α → Bool} {f g : α → α} {rows : List α}
    (sameRows : ∀ r ∈ rows, p r = q r) (sameValues : ∀ r ∈ rows, q r = true → f r = g r) :
    updateWhere p f rows = updateWhere q g rows := by
  apply List.map_congr_left
  intro r member
  rw [sameRows r member]
  split
  · exact sameValues r member ‹_›
  · rfl

/-- Rows of other keys keep their place when an update only concerns key `k`. -/
theorem ofKey_updateWhere_other {l : κ} {p : α → Bool} {f : α → α}
    (keeps : ∀ r, p r = true → key (f r) = key r) (only : ∀ r, p r = true → key r = l)
    (other : k ≠ l) (rows : List α) : ofKey key k (updateWhere p f rows) = ofKey key k rows := by
  rw [ofKey_updateWhere keeps]
  apply updateWhere_none
  intro r member
  have hk := (mem_ofKey.mp member).2
  by_contra selected
  exact other (hk.symm.trans (only r (by simpa using selected)))

theorem ofKey_deleteWhere_same (rows : List α) :
    ofKey key k (deleteWhere (fun r => key r = k) rows) = [] := by
  simp [ofKey, deleteWhere, List.filter_filter]

theorem ofKey_deleteWhere_other {l : κ} (other : k ≠ l) (rows : List α) :
    ofKey key k (deleteWhere (fun r => key r = l) rows) = ofKey key k rows := by
  simp only [ofKey, deleteWhere, List.filter_filter]
  apply List.filter_congr
  intro r _
  by_cases same : key r = k
  · simp [same, other]
  · simp [same]

/-- Deleting again what was inserted after a first deletion leaves what that left. -/
theorem deleteWhere_again {p : α → Bool} (new : List α) (selected : ∀ r ∈ new, p r = true)
    (rows : List α) : deleteWhere p (deleteWhere p rows ++ new) = deleteWhere p rows := by
  have gone : new.filter (fun r => !p r) = [] :=
    List.filter_eq_nil_iff.mpr fun r member => by simp [selected r member]
  simp only [deleteWhere, List.filter_append, List.filter_filter, Bool.and_self, gone, List.append_nil]

theorem mem_updateWhere {p : α → Bool} {f : α → α} {rows : List α} {r : α} :
    r ∈ updateWhere p f rows ↔ ∃ old ∈ rows, (if p old then f old else old) = r := by
  simp [updateWhere]

theorem map_updateWhere {β : Type*} {g : α → β} {p : α → Bool} {f : α → α}
    (keeps : ∀ r, p r = true → g (f r) = g r) (rows : List α) :
    (updateWhere p f rows).map g = rows.map g := by
  simp only [updateWhere, List.map_map]
  apply List.map_congr_left
  intro r _
  simp only [Function.comp]
  split
  · exact keeps r ‹_›
  · rfl

/-- The first row an update selects stays the first one selected. -/
theorem find_updateWhere {p : α → Bool} {f : α → α} (keeps : ∀ r, p r = true → p (f r) = true)
    (rows : List α) : (updateWhere p f rows).find? p = (rows.find? p).map f := by
  induction rows with
  | nil => rfl
  | cons r rest ih =>
    simp only [updateWhere, List.map_cons, List.find?_cons] at ih ⊢
    cases selected : p r with
    | true => simp [keeps r selected]
    | false => simp [selected, ih]

theorem countP_updateWhere_same {p q : α → Bool} {f : α → α} {rows : List α}
    (same : ∀ r ∈ rows, p r = true → q (f r) = q r) : (updateWhere p f rows).countP q = rows.countP q := by
  rw [updateWhere, List.countP_map]
  apply List.countP_congr
  intro r member
  simp only [Function.comp]
  split
  · rw [same r member ‹_›]
  · rfl

/-- An update that clears what is counted on some row it selects lowers the count. -/
theorem countP_updateWhere_lt {p q : α → Bool} {f : α → α} {rows : List α}
    (clears : ∀ r, p r = true → q (f r) = false) (counted : ∃ r ∈ rows, p r = true ∧ q r = true) :
    (updateWhere p f rows).countP q < rows.countP q := by
  have never : ∀ r, q (if p r = true then f r else r) = (q r && !p r) := by
    intro r
    by_cases selected : p r = true
    · simp [selected, clears r selected]
    · simp [selected]
  have left : (updateWhere p f rows).countP q = rows.countP fun r => q r && !p r := by
    rw [updateWhere, List.countP_map]
    exact congrArg (List.countP · rows) (funext never)
  have parts := List.countP_eq_countP_filter_add rows q p
  simp only [List.countP_filter] at parts
  obtain ⟨r, member, selected, counted⟩ := counted
  have some : 0 < rows.countP fun r => q r && p r :=
    List.countP_pos_iff.mpr ⟨r, member, by simp [selected, counted]⟩
  have rest : (rows.countP fun r => q r && !p r) = rows.countP fun r => q r && decide ¬ p r = true :=
    List.countP_congr fun r _ => by simp
  omega

theorem upsert_ofKey_other {merge : α → α → α} {row : α} (keeps : ∀ old, key (merge old row) = key old)
    (other : k ≠ key row) (rows : List α) :
    ofKey key k (upsert key merge row rows) = ofKey key k rows := by
  unfold upsert
  split
  · exact ofKey_updateWhere_other (fun r _ => keeps r) (l := key row) (fun r h => by simpa using h)
      other rows
  · exact ofKey_append_other (by simpa using other.symm)

theorem mem_upsert {merge : α → α → α} {row r : α} {rows : List α} :
    r ∈ upsert key merge row rows ↔ (r ∈ rows ∧ key r ≠ key row) ∨
      (∃ old ∈ rows, key old = key row ∧ merge old row = r) ∨
      (r = row ∧ ∀ old ∈ rows, key old ≠ key row) := by
  unfold upsert
  split
  · rename_i present
    obtain ⟨p, member, same⟩ := List.any_eq_true.mp present
    have some : ¬ ∀ old ∈ rows, key old ≠ key row := fun none => none p member (by simpa using same)
    simp only [mem_updateWhere, decide_eq_true_eq, some, and_false, or_false]
    constructor
    · rintro ⟨old, inside, rfl⟩
      split
      · rename_i here
        exact .inr ⟨old, inside, here, rfl⟩
      · rename_i other
        exact .inl ⟨inside, other⟩
    · rintro (⟨inside, other⟩ | ⟨old, inside, here, rfl⟩)
      · exact ⟨r, inside, if_neg other⟩
      · exact ⟨old, inside, if_pos here⟩
  · rename_i absent
    have none : ∀ old ∈ rows, key old ≠ key row := fun old inside same =>
      absent (List.any_eq_true.mpr ⟨old, inside, by simpa using same⟩)
    constructor
    · intro member
      rcases List.mem_append.mp member with old | new
      · exact .inl ⟨old, none r old⟩
      · exact .inr (.inr ⟨List.mem_singleton.mp new, none⟩)
    · rintro (⟨inside, _⟩ | ⟨old, inside, here, _⟩ | ⟨rfl, _⟩)
      · exact List.mem_append_left _ inside
      · exact absurd here (none old inside)
      · simp

theorem upsert_keys_distinct {merge : α → α → α} {row : α} {rows : List α}
    (keeps : ∀ old, key (merge old row) = key old) (distinct : (rows.map key).Nodup) :
    ((upsert key merge row rows).map key).Nodup := by
  unfold upsert
  split
  · rwa [map_updateWhere fun old _ => keeps old]
  · rename_i absent
    rw [List.map_append]
    refine List.nodup_append.mpr ⟨distinct, List.nodup_singleton _, ?_⟩
    rintro a old b new rfl
    obtain ⟨r, inside, same⟩ := List.mem_map.mp old
    refine absent (List.any_eq_true.mpr ⟨r, inside, ?_⟩)
    simpa [same] using new

/-- An upsert adds at most the key of its row. -/
theorem mem_keys_upsert {merge : α → α → α} {row : α} (keeps : ∀ old, key (merge old row) = key old)
    {rows : List α} :
    k ∈ (upsert key merge row rows).map key ↔ k ∈ rows.map key ∨ k = key row := by
  unfold upsert
  split
  · rename_i present
    rw [map_updateWhere fun old _ => keeps old]
    obtain ⟨r, inside, same⟩ := List.any_eq_true.mp present
    have there : key row ∈ rows.map key :=
      List.mem_map.mpr ⟨r, inside, by simpa using same⟩
    exact ⟨.inl, fun either => either.elim id fun here => here ▸ there⟩
  · simp

theorem head_ofKey (rows : List α) : (ofKey key k rows).head? = rows.find? fun r => key r = k :=
  List.head?_filter

theorem ofKey_upsert_same {merge : α → α → α} {row : α} (keeps : ∀ old, key (merge old row) = key old)
    (rows : List α) : ofKey key (key row) (upsert key merge row rows) =
      match ofKey key (key row) rows with
      | [] => [row]
      | found => found.map fun old => merge old row := by
  unfold upsert
  split
  · rename_i present
    obtain ⟨r, member, same⟩ := List.any_eq_true.mp present
    rw [ofKey_updateWhere fun old _ => keeps old]
    have all : ∀ r ∈ ofKey key (key row) rows, key r = key row := fun r inside => (mem_ofKey.mp inside).2
    have found : r ∈ ofKey key (key row) rows := mem_ofKey.mpr ⟨member, by simpa using same⟩
    split
    · rename_i none
      simp [none] at found
    · apply List.map_congr_left
      intro old inside
      simp [all old inside]
  · rename_i absent
    have none : ofKey key (key row) rows = [] :=
      ofKey_none fun r member same => absent (List.any_eq_true.mpr ⟨r, member, by simpa using same⟩)
    rw [ofKey_append_same (by simp), none]
    rfl

end

section
variable {key : α → Int}

@[simp] theorem mem_orderBy {rows : List α} {r : α} : r ∈ orderBy key rows ↔ r ∈ rows := by
  simp [orderBy]

theorem orderBy_sorted {rows : List α} (sorted : rows.Pairwise fun a b => key a ≤ key b) :
    orderBy key rows = rows := by
  have total : IsTrans α (fun a b : α => key a ≤ key b) := ⟨fun _ _ _ => le_trans⟩
  exact List.Pairwise.insertionSort_eq sorted

theorem orderBy_updateWhere {p : α → Bool} {f : α → α} (keeps : ∀ r, p r = true → key (f r) = key r)
    (rows : List α) : orderBy key (updateWhere p f rows) = updateWhere p f (orderBy key rows) := by
  have same : ∀ r, key (if p r then f r else r) = key r := by
    intro r
    split
    · exact keeps r ‹_›
    · rfl
  exact (List.map_insertionSort _ _ _ rows fun a _ b _ => by rw [same a, same b]).symm

/-- Writing a list position is updating the only row with its key. -/
theorem set_eq_updateWhere {κ : Type*} [DecidableEq κ] {name : α → κ} {rows : List α}
    (distinct : (rows.map name).Nodup) {i : Nat} {x y : α} (present : rows[i]? = some x) :
    rows.set i y = updateWhere (fun r => name r = name x) (fun _ => y) rows := by
  induction rows generalizing i with
  | nil => simp at present
  | cons r rest ih =>
    simp only [List.map_cons, List.nodup_cons] at distinct
    cases i with
    | zero =>
      simp only [List.getElem?_cons_zero, Option.some.injEq] at present
      subst present
      have others : ∀ z ∈ rest, decide (name z = name r) = false := by
        intro z member
        simp only [decide_eq_false_iff_not]
        intro same
        exact distinct.1 (List.mem_map.mpr ⟨z, member, same⟩)
      have untouched := updateWhere_none (f := fun _ => y) others
      simp only [updateWhere] at untouched
      simp only [List.set_cons_zero, updateWhere, List.map_cons, decide_true, ↓reduceIte]
      exact congrArg (y :: ·) untouched.symm
    | succ i =>
      simp only [List.getElem?_cons_succ] at present
      have differs : name r ≠ name x := fun same =>
        distinct.1 (List.mem_map.mpr ⟨x, List.mem_of_getElem? present, same.symm⟩)
      have tail := ih distinct.2 present
      simp only [updateWhere] at tail
      simp [updateWhere, differs, tail]

end

end Rows
