import Mathlib

/- Cutting a text into lines at its line breaks, and putting lines together. -/
namespace Lines

/-- The characters that end a line; a carriage return and the line feed after it end one line. -/
def lineBreaks : List Char :=
  ['\n', '\r', '\x0b', '\x0c', '\x1c', '\x1d', '\x1e', '\u0085', '\u2028', '\u2029']

def Unbroken (text : List Char) : Prop := ∀ c ∈ text, c ∉ lineBreaks

instance (text : List Char) : Decidable (Unbroken text) :=
  inferInstanceAs (Decidable (∀ c ∈ text, c ∉ lineBreaks))

def EndsPlain (text : List Char) : Prop := ∃ before c, text = before ++ [c] ∧ c ∉ lineBreaks

/-- A break ends a line, so that none follows the last one. -/
def splitlines : List Char → List (List Char)
  | [] => []
  | '\r' :: '\n' :: rest => [] :: splitlines rest
  | c :: rest =>
    if c ∈ lineBreaks then [] :: splitlines rest
    else match splitlines rest with
      | [] => [[c]]
      | line :: lines => (c :: line) :: lines

def joinLines : List (List Char) → List Char := List.intercalate ['\n']

section
variable {c : Char} {text rest : List Char}

@[simp] theorem unbroken_append : Unbroken (text ++ rest) ↔ Unbroken text ∧ Unbroken rest :=
  List.forall_mem_append

theorem unbroken_replicate (plain : c ∉ lineBreaks) (n : Nat) : Unbroken (List.replicate n c) :=
  fun _ member => (List.eq_of_mem_replicate member) ▸ plain

theorem splitlines_break (isBreak : c ∈ lineBreaks) (alone : ∀ later, c = '\r' → rest ≠ '\n' :: later) :
    splitlines (c :: rest) = [] :: splitlines rest := by
  rw [splitlines, if_pos isBreak]
  exact fun later carriage feed => alone later carriage feed

theorem splitlines_char (plain : c ∉ lineBreaks) : splitlines (c :: rest) =
    match splitlines rest with
      | [] => [[c]]
      | line :: lines => (c :: line) :: lines := by
  rw [splitlines, if_neg plain]
  rintro _ rfl
  exact absurd (by decide) plain

theorem splitlines_some (some : text ≠ []) : splitlines text ≠ [] := by
  cases text using splitlines.fun_cases_unfolding with
  | case1 => exact absurd rfl some
  | case2 | case3 | case4 | case5 => simp

/-- The lines have the characters of the text that are no breaks. -/
theorem splitlines_flatten (text : List Char) :
    (splitlines text).flatten = text.filter fun c => c ∉ lineBreaks := by
  fun_induction splitlines text with
  | case1 => rfl
  | case2 rest ih => simp [ih, lineBreaks]
  | case3 c rest _ isBreak ih => simp [ih, isBreak]
  | case4 c rest _ plain empty ih =>
    rw [List.filter_cons_of_pos (by simpa using plain), ← ih, empty]
    rfl
  | case5 c rest _ plain line lines cut ih =>
    rw [List.filter_cons_of_pos (by simpa using plain), ← ih, cut]
    rfl

theorem splitlines_unbroken (unbroken : Unbroken text) (some : text ≠ []) :
    splitlines text = [text] := by
  induction text with
  | nil => exact absurd rfl some
  | cons c rest ih =>
    rw [splitlines_char (unbroken c List.mem_cons_self)]
    rcases rest with _ | ⟨d, rest⟩
    · rfl
    · rw [ih (fun x member => unbroken x (List.mem_cons_of_mem c member)) (by simp)]

/-- A text is one of its own lines, and no line is shorter, when nothing breaks it. -/
theorem splitlines_whole_iff (some : text ≠ []) :
    (∀ line ∈ splitlines text, line.length = text.length) ↔ Unbroken text := by
  constructor
  · intro whole c member isBreak
    obtain ⟨line, inside⟩ := List.exists_mem_of_ne_nil _ (splitlines_some some)
    have part : line.length ≤ (splitlines text).flatten.length :=
      (List.sublist_flatten_of_mem inside).length_le
    have fewer : (text.filter fun c => c ∉ lineBreaks).length < text.length :=
      List.length_filter_lt_length_iff_exists.mpr ⟨c, member, by simpa using isBreak⟩
    rw [splitlines_flatten, whole line inside] at part
    omega
  · intro unbroken line inside
    rw [splitlines_unbroken unbroken some, List.mem_singleton] at inside
    rw [inside]

/-- A line feed after a plain character ends a line for good. -/
theorem splitlines_feed (plain : c ∉ lineBreaks) (text rest : List Char) :
    splitlines (text ++ c :: '\n' :: rest) = splitlines (text ++ [c]) ++ splitlines rest := by
  have feed : splitlines ('\n' :: rest) = [] :: splitlines rest :=
    splitlines_break (by decide) (by simp)
  fun_induction splitlines text with
  | case1 =>
    simp only [List.nil_append]
    rw [splitlines_char plain, splitlines_char plain, feed]
    rfl
  | case2 text ih => simp [splitlines, ih]
  | case3 d text alone isBreak ih =>
    have alone' (more later : List Char) (carriage : d = '\r') :
        text ++ c :: more ≠ '\n' :: later := by
      rcases text with _ | ⟨e, text⟩
      · rintro ⟨⟩
        exact plain (by decide)
      · rintro ⟨⟩
        exact alone text carriage rfl
    simp only [List.cons_append]
    rw [splitlines_break isBreak (alone' _), splitlines_break isBreak (alone' []), ih]
    rfl
  | case4 d text _ plain' _ ih | case5 d text _ plain' _ _ _ ih =>
    simp only [List.cons_append]
    rw [splitlines_char plain', splitlines_char plain', ih]
    cases cut : splitlines (text ++ [c]) with
    | nil => exact absurd cut (splitlines_some (by simp))
    | cons line lines => rfl

/-- Joined lines are cut apart again, each by itself. -/
theorem splitlines_join {lines : List (List Char)}
    (ends : ∀ line ∈ lines, EndsPlain line) :
    splitlines (joinLines lines) = lines.flatMap splitlines := by
  induction lines with
  | nil => rfl
  | cons line lines ih =>
    obtain ⟨before, c, rfl, plain⟩ := ends line List.mem_cons_self
    rcases lines with _ | ⟨second, lines⟩
    · simp [joinLines, List.intercalate]
    · have rest := ih fun line member => ends line (List.mem_cons_of_mem _ member)
      have joined : joinLines ((before ++ [c]) :: second :: lines) =
          before ++ c :: '\n' :: joinLines (second :: lines) := by
        simp [joinLines, List.intercalate]
      rw [joined, splitlines_feed plain, rest]
      rfl

end

/-- Lines of one length that end plainly are cut to that length when nothing breaks them. -/
theorem splitlines_aligned_iff {lines : List (List Char)} {width : Nat} (some : 0 < width)
    (aligned : ∀ line ∈ lines, line.length = width)
    (ends : ∀ line ∈ lines, EndsPlain line) :
    (∀ line ∈ splitlines (joinLines lines), line.length = width) ↔
      ∀ line ∈ lines, Unbroken line := by
  have whole : ∀ line ∈ lines, (∀ part ∈ splitlines line, part.length = width) ↔ Unbroken line := by
    intro line member
    rw [← aligned line member]
    apply splitlines_whole_iff
    intro none
    have length := aligned line member
    rw [none, List.length_nil] at length
    omega
  rw [splitlines_join ends]
  constructor
  · intro all line member
    exact (whole line member).mp fun part inside => all part (List.mem_flatMap.mpr ⟨line, member, inside⟩)
  · intro unbroken part inside
    obtain ⟨line, member, inside⟩ := List.mem_flatMap.mp inside
    exact (whole line member).mpr (unbroken line member) part inside

end Lines
