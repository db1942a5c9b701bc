import Crashsafe.Library.Rows
import Mathlib.Tactic.IntervalCases

/- JSON texts of values without fractions: how Python's `json.dumps` writes them in ASCII, and how
   `json.loads` reads a text. A text with a fraction, an exponent or a lone surrogate is not read
   here. -/
namespace JsonText
open Rows

inductive Value where
  | null
  | bool (b : Bool)
  | int (n : Int)
  | str (s : String)
  | arr (items : List Value)
  | obj (fields : List (String × Value))

section Writing

/- Four lower-case hexadecimal digits. -/
def hexText (n : Nat) : List Char :=
  [n / 4096 % 16, n / 256 % 16, n / 16 % 16, n % 16].map Nat.digitChar

def unicodeEscape (n : Nat) : List Char := '\\' :: 'u' :: hexText n

/- The letter after the backslash of the characters that have one. -/
def shortEscapes : List (Char × Char) :=
  [('"', '"'), ('\\', '\\'), ('\n', 'n'), ('\r', 'r'), ('\t', 't'), ('\x0c', 'f'), ('\x08', 'b')]

/- A character past the basic plane is two escapes, a surrogate each. -/
def escapeChar (c : Char) : List Char :=
  match shortEscapes.lookup c with
  | some letter => ['\\', letter]
  | none =>
    if ' ' ≤ c ∧ c ≤ '~' then [c]
    else if c.toNat < 0x10000 then unicodeEscape c.toNat
    else unicodeEscape (0xd800 + (c.toNat - 0x10000) / 1024) ++
      unicodeEscape (0xdc00 + (c.toNat - 0x10000) % 1024)

def stringText (s : String) : List Char := '"' :: s.toList.flatMap escapeChar ++ ['"']

def intText (n : Int) : List Char :=
  if n < 0 then '-' :: Nat.toDigits 10 n.natAbs else Nat.toDigits 10 n.natAbs

/- `spaced` is whether a blank follows each separator. -/
def blank (spaced : Bool) : List Char := if spaced then [' '] else []

def separator (spaced : Bool) (c : Char) : List Char := c :: blank spaced

mutual

def text (spaced : Bool) : Value → List Char
  | .null => ['n', 'u', 'l', 'l']
  | .bool true => ['t', 'r', 'u', 'e']
  | .bool false => ['f', 'a', 'l', 's', 'e']
  | .int n => intText n
  | .str s => stringText s
  | .arr [] => ['[', ']']
  | .arr (v :: rest) => '[' :: text spaced v ++ itemsText spaced rest
  | .obj [] => ['{', '}']
  | .obj ((k, v) :: rest) =>
    '{' :: stringText k ++ separator spaced ':' ++ text spaced v ++ fieldsText spaced rest

def itemsText (spaced : Bool) : List Value → List Char
  | [] => [']']
  | v :: rest => separator spaced ',' ++ text spaced v ++ itemsText spaced rest

def fieldsText (spaced : Bool) : List (String × Value) → List Char
  | [] => ['}']
  | (k, v) :: rest => separator spaced ',' ++ stringText k ++ separator spaced ':' ++
      text spaced v ++ fieldsText spaced rest

end

mutual

/-- `sort_keys=True`. -/
def sortKeys : Value → Value
  | .arr items => .arr (sortItems items)
  | .obj fields => .obj ((sortFields fields).insertionSort fun a b => a.1 ≤ b.1)
  | v => v

def sortItems : List Value → List Value
  | [] => []
  | v :: rest => sortKeys v :: sortItems rest

def sortFields : List (String × Value) → List (String × Value)
  | [] => []
  | (k, v) :: rest => (k, sortKeys v) :: sortFields rest

end

def dumps (spaced : Bool) (v : Value) : String := String.ofList (text spaced v)

end Writing

section Reading

def isSpace (c : Char) : Bool := c ∈ [' ', '\t', '\n', '\r']

def skip (text : List Char) : List Char := text.dropWhile isSpace

def hexValue (c : Char) : Option Nat :=
  if '0' ≤ c ∧ c ≤ '9' then some (c.toNat - '0'.toNat)
  else if 'a' ≤ c ∧ c ≤ 'f' then some (c.toNat - 'a'.toNat + 10)
  else if 'A' ≤ c ∧ c ≤ 'F' then some (c.toNat - 'A'.toNat + 10)
  else none

def readHex : List Char → Option (Nat × List Char)
  | a :: b :: c :: d :: rest => do
    some ((((← hexValue a) * 16 + (← hexValue b)) * 16 + (← hexValue c)) * 16 + (← hexValue d), rest)
  | _ => none

/- What follows `\u`: one character, or the first half of one. -/
def readUnicode (text : List Char) : Option (Char × List Char) :=
  match readHex text with
  | none => none
  | some (n, rest) =>
    if n < 0xd800 ∨ 0xe000 ≤ n then some (Char.ofNat n, rest)
    else
      match rest with
      | '\\' :: 'u' :: rest =>
        match readHex rest with
        | some (low, rest) =>
          if n < 0xdc00 ∧ 0xdc00 ≤ low ∧ low < 0xe000 then
            some (Char.ofNat (0x10000 + (n - 0xd800) * 1024 + (low - 0xdc00)), rest)
          else none
        | none => none
      | _ => none

/- What follows a backslash; a slash may be escaped too. -/
def readEscape : List Char → Option (Char × List Char)
  | 'u' :: rest => readUnicode rest
  | letter :: rest =>
    (((('/', '/') :: shortEscapes).map Prod.swap).lookup letter).map fun c => (c, rest)
  | [] => none

/-- The characters up to the closing quote; each takes one of the rounds. -/
def readChars : Nat → List Char → Option (List Char × List Char)
  | 0, _ => none
  | rounds + 1, text =>
    match text with
    | '"' :: rest => some ([], rest)
    | '\\' :: rest => do
      let (c, rest) ← readEscape rest
      let (cs, rest) ← readChars rounds rest
      some (c :: cs, rest)
    | c :: rest =>
      if c < ' ' then none
      else do
        let (cs, rest) ← readChars rounds rest
        some (c :: cs, rest)
    | [] => none

def readString (text : List Char) : Option (String × List Char) :=
  (readChars (text.length + 1) text).map fun (cs, rest) => (String.ofList cs, rest)

def readNat (text : List Char) : Option (Nat × List Char) :=
  let digits := text.takeWhile Char.isDigit
  let rest := text.dropWhile Char.isDigit
  if digits = [] ∨ (digits.head? = some '0' ∧ digits ≠ ['0']) ∨ rest.head? ∈ [some '.', some 'e', some 'E']
  then none
  else some (Nat.ofDigitChars 10 digits 0, rest)

def readInt : List Char → Option (Int × List Char)
  | '-' :: rest => (readNat rest).map fun (n, rest) => (-(n : Int), rest)
  | text => (readNat text).map fun (n, rest) => ((n : Int), rest)

/- The last of several fields of one name is the one a dict keeps. -/
def dict (fields : List (String × Value)) : List (String × Value) :=
  fields.foldl (fun kept field => upsert Prod.fst (fun _ new => new) field kept) []

mutual

/-- The value a text begins with, and what follows it; the rounds bound the nesting. -/
def readValue : Nat → List Char → Option (Value × List Char)
  | 0, _ => none
  | rounds + 1, text =>
    match skip text with
    | 'n' :: 'u' :: 'l' :: 'l' :: rest => some (.null, rest)
    | 't' :: 'r' :: 'u' :: 'e' :: rest => some (.bool true, rest)
    | 'f' :: 'a' :: 'l' :: 's' :: 'e' :: rest => some (.bool false, rest)
    | '"' :: rest => (readString rest).map fun (s, rest) => (.str s, rest)
    | '[' :: rest =>
      match skip rest with
      | ']' :: rest => some (.arr [], rest)
      | rest => do
        let (v, rest) ← readValue rounds rest
        let (items, rest) ← readItems rounds rest
        some (.arr (v :: items), rest)
    | '{' :: rest =>
      match skip rest with
      | '}' :: rest => some (.obj [], rest)
      | rest => do
        let (field, rest) ← readField rounds rest
        let (fields, rest) ← readFields rounds rest
        some (.obj (dict (field :: fields)), rest)
    | rest => (readInt rest).map fun (n, rest) => (.int n, rest)

/-- The items after the first one. -/
def readItems : Nat → List Char → Option (List Value × List Char)
  | 0, _ => none
  | rounds + 1, text =>
    match skip text with
    | ']' :: rest => some ([], rest)
    | ',' :: rest => do
      let (v, rest) ← readValue rounds rest
      let (items, rest) ← readItems rounds rest
      some (v :: items, rest)
    | _ => none

def readField : Nat → List Char → Option ((String × Value) × List Char)
  | 0, _ => none
  | rounds + 1, text =>
    match skip text with
    | '"' :: rest => do
      let (k, rest) ← readString rest
      match skip rest with
      | ':' :: rest =>
        let (v, rest) ← readValue rounds rest
        some ((k, v), rest)
      | _ => none
    | _ => none

/-- The fields after the first one. -/
def readFields : Nat → List Char → Option (List (String × Value) × List Char)
  | 0, _ => none
  | rounds + 1, text =>
    match skip text with
    | '}' :: rest => some ([], rest)
    | ',' :: rest => do
      let (field, rest) ← readField rounds rest
      let (fields, rest) ← readFields rounds rest
      some (field :: fields, rest)
    | _ => none

end

def loads (s : String) : Option Value :=
  match readValue (s.toList.length + 1) s.toList with
  | some (v, rest) => if skip rest = [] then some v else none
  | none => none

end Reading

section Characters

theorem hex_digit_value : ∀ k : Fin 16, hexValue (Nat.digitChar k) = some (k : Nat) := by decide

theorem hex_value (n : Nat) : hexValue (Nat.digitChar (n % 16)) = some (n % 16) :=
  hex_digit_value ⟨n % 16, Nat.mod_lt n (by decide)⟩

theorem read_hex {n : Nat} (small : n < 0x10000) (rest : List Char) :
    readHex (hexText n ++ rest) = some (n, rest) := by
  simp only [hexText, List.map_cons, List.map_nil, List.cons_append, List.nil_append, readHex,
    hex_value, Option.bind_eq_bind, Option.bind_some, Option.some.injEq, Prod.mk.injEq, and_true]
  omega

theorem char_of_nat (c : Char) : Char.ofNat c.toNat = c := Char.ofNat_toNat c

/-- A scalar value is not a surrogate. -/
theorem scalar_value (c : Char) : c.toNat < 0xd800 ∨ (0xe000 ≤ c.toNat ∧ c.toNat < 0x110000) := by
  have valid : c.toNat < 0xd800 ∨ (0xdfff < c.toNat ∧ c.toNat < 0x110000) := c.valid
  omega

theorem read_scalar {n : Nat} {text rest : List Char} (hex : readHex text = some (n, rest))
    (scalar : n < 0xd800 ∨ 0xe000 ≤ n) : readUnicode text = some (Char.ofNat n, rest) := by
  simp only [readUnicode, hex, if_pos scalar]

theorem not_surrogate (c : Char) : c.toNat < 0xd800 ∨ 0xe000 ≤ c.toNat := by
  rcases scalar_value c with low | ⟨high, _⟩
  · exact Or.inl low
  · exact Or.inr high

theorem read_unicode (c : Char) (basic : c.toNat < 0x10000) (rest : List Char) :
    readUnicode (hexText c.toNat ++ rest) = some (c, rest) := by
  rw [read_scalar (read_hex basic rest) (not_surrogate c), char_of_nat]

theorem read_pair {n low : Nat} {text rest after : List Char}
    (hex : readHex text = some (n, '\\' :: 'u' :: rest)) (hexLow : readHex rest = some (low, after))
    (high : ¬ (n < 0xd800 ∨ 0xe000 ≤ n)) (pair : n < 0xdc00 ∧ 0xdc00 ≤ low ∧ low < 0xe000) :
    readUnicode text = some (Char.ofNat (0x10000 + (n - 0xd800) * 1024 + (low - 0xdc00)), after) := by
  simp only [readUnicode, hex, hexLow, if_neg high, if_pos pair]

theorem read_halves {n : Nat} (past : 0x10000 ≤ n) (bound : n < 0x110000) (rest : List Char) :
    readUnicode (hexText (0xd800 + (n - 0x10000) / 1024) ++
      '\\' :: 'u' :: (hexText (0xdc00 + (n - 0x10000) % 1024) ++ rest)) =
        some (Char.ofNat n, rest) := by
  have whole : 0x10000 + (0xd800 + (n - 0x10000) / 1024 - 0xd800) * 1024 +
      (0xdc00 + (n - 0x10000) % 1024 - 0xdc00) = n := by omega
  rw [read_pair (read_hex (by omega) _) (read_hex (by omega) rest) (by omega) (by omega), whole]

theorem read_surrogates (c : Char) (past : 0x10000 ≤ c.toNat) (rest : List Char) :
    readUnicode (hexText (0xd800 + (c.toNat - 0x10000) / 1024) ++
      '\\' :: 'u' :: (hexText (0xdc00 + (c.toNat - 0x10000) % 1024) ++ rest)) = some (c, rest) := by
  have bound : c.toNat < 0x110000 := by
    rcases scalar_value c with low | ⟨_, below⟩ <;> omega
  rw [read_halves past bound rest, char_of_nat]

theorem lookup_mem {table : List (Char × Char)} {c letter : Char}
    (found : table.lookup c = some letter) : (c, letter) ∈ table := by
  obtain ⟨before, after, whole, _⟩ := List.lookup_eq_some_iff.mp found
  exact whole ▸ List.mem_append_right before List.mem_cons_self

theorem short_escape {c letter : Char} (short : shortEscapes.lookup c = some letter)
    (rest : List Char) : readEscape (letter :: rest) = some (c, rest) := by
  have among : (c, letter) ∈ shortEscapes := lookup_mem short
  fin_cases among <;> rfl

theorem plain_char {c : Char} (long : shortEscapes.lookup c = none) (printable : ' ' ≤ c) :
    c ≠ '"' ∧ c ≠ '\\' ∧ ¬ c < ' ' := by
  refine ⟨?_, ?_, Char.not_lt.mpr printable⟩
  · rintro rfl; cases long
  · rintro rfl; cases long

/-- An escaped character is read back, and one round is spent. -/
theorem read_char (c : Char) (rounds : Nat) (rest : List Char) :
    readChars (rounds + 1) (escapeChar c ++ rest) =
      (readChars rounds rest).map fun (cs, after) => (c :: cs, after) := by
  unfold escapeChar
  split
  · rename_i letter short
    simp only [List.cons_append, List.nil_append, readChars, short_escape short, Option.bind_eq_bind,
      Option.bind_some]
    cases readChars rounds rest <;> rfl
  · rename_i long
    split
    · rename_i printable
      obtain ⟨quote, slash, control⟩ := plain_char long printable.1
      simp only [List.cons_append, List.nil_append]
      rw [readChars]
      · rw [if_neg control]
        cases readChars rounds rest <;> rfl
      · exact quote
      · exact slash
    · split
      · rename_i basic
        simp only [unicodeEscape, List.cons_append, readChars, readEscape, read_unicode c basic,
          Option.bind_eq_bind, Option.bind_some]
        cases readChars rounds rest <;> rfl
      · rename_i past
        simp only [unicodeEscape, List.cons_append, List.append_assoc, readChars, readEscape,
          read_surrogates c (Nat.le_of_not_lt past), Option.bind_eq_bind, Option.bind_some]
        cases readChars rounds rest <;> rfl

theorem escape_nonempty (c : Char) : 1 ≤ (escapeChar c).length := by
  unfold escapeChar
  split
  · exact Nat.le_add_left 1 1
  · split
    · exact Nat.le_refl 1
    · split <;> exact Nat.le_add_left 1 _

theorem chars_bound (cs : List Char) : cs.length ≤ (cs.flatMap escapeChar).length := by
  induction cs with
  | nil => exact Nat.le_refl 0
  | cons c cs within =>
    have nonempty := escape_nonempty c
    rw [List.flatMap_cons, List.length_append, List.length_cons]
    omega

theorem read_chars (cs rest : List Char) {rounds : Nat} (enough : cs.length < rounds) :
    readChars rounds (cs.flatMap escapeChar ++ '"' :: rest) = some (cs, rest) := by
  induction cs generalizing rounds with
  | nil =>
    obtain ⟨rounds, rfl⟩ := Nat.exists_eq_add_one_of_ne_zero (Nat.ne_of_gt enough)
    rfl
  | cons c cs back =>
    obtain ⟨rounds, rfl⟩ := Nat.exists_eq_add_one_of_ne_zero (Nat.ne_of_gt (Nat.zero_lt_of_lt enough))
    rw [List.flatMap_cons, List.append_assoc, read_char, back (Nat.lt_of_succ_lt_succ enough)]
    rfl

/-- What follows the opening quote of a string's text is read back. -/
theorem read_string (s : String) (rest : List Char) :
    readString (s.toList.flatMap escapeChar ++ '"' :: rest) = some (s, rest) := by
  have bound := chars_bound s.toList
  have enough : s.toList.length < (s.toList.flatMap escapeChar ++ '"' :: rest).length + 1 := by
    rw [List.length_append]
    omega
  rw [readString, read_chars s.toList rest enough]
  exact congrArg some (congrArg (·, rest) String.ofList_toList)

end Characters

section Numbers

/- What can follow a value inside another. -/
def Delimited (rest : List Char) : Prop := ∀ c ∈ rest.head?, c = ',' ∨ c = ']' ∨ c = '}'

theorem delimited_cons {c : Char} (rest : List Char) (delimiter : c = ',' ∨ c = ']' ∨ c = '}') :
    Delimited (c :: rest) := by
  intro first at_head
  cases at_head
  exact delimiter

theorem delimited_not_digit {rest : List Char} (delimited : Delimited rest) :
    rest.takeWhile Char.isDigit = [] ∧ rest.dropWhile Char.isDigit = rest := by
  cases rest with
  | nil => exact ⟨rfl, rfl⟩
  | cons c rest =>
    have plain : c.isDigit = false := by
      obtain rfl | rfl | rfl := delimited c rfl <;> rfl
    simp only [List.takeWhile_cons, List.dropWhile_cons, plain, Bool.false_eq_true, ↓reduceIte,
      and_self]

theorem delimited_not_fraction {rest : List Char} (delimited : Delimited rest) :
    rest.head? ∉ [some '.', some 'e', some 'E'] := by
  cases rest with
  | nil => decide
  | cons c rest => obtain rfl | rfl | rfl := delimited c rfl <;> exact of_decide_eq_false rfl

/-- Only zero's digits begin with a zero. -/
theorem leading_zero (n : Nat) (zero : (Nat.toDigits 10 n).head? = some '0') :
    Nat.toDigits 10 n = ['0'] := by
  induction n using Nat.strong_induction_on with
  | _ n shorter =>
    rw [Nat.toDigits_eq_if (by decide)] at zero ⊢
    split at zero
    · rename_i small
      rw [if_pos small]
      interval_cases n <;> first | rfl | cases zero
    · rename_i large
      exfalso
      rw [List.head?_append_of_ne_nil _ Nat.toDigits_ne_nil] at zero
      have alone := shorter (n / 10) (by omega) zero
      have whole : Nat.ofDigitChars 10 (Nat.toDigits 10 (n / 10)) 0 = n / 10 :=
        Nat.ofDigitChars_ten_toDigits
      rw [alone] at whole
      have none_left : (0 : Nat) = n / 10 := whole
      omega

theorem read_nat (n : Nat) {rest : List Char} (delimited : Delimited rest) :
    readNat (Nat.toDigits 10 n ++ rest) = some (n, rest) := by
  have digits : ∀ c ∈ Nat.toDigits 10 n, c.isDigit = true := fun _ among =>
    Nat.isDigit_of_mem_toDigits (by decide) (by decide) among
  obtain ⟨none_taken, none_dropped⟩ := delimited_not_digit delimited
  have plain : ¬ (Nat.toDigits 10 n = [] ∨
      ((Nat.toDigits 10 n).head? = some '0' ∧ Nat.toDigits 10 n ≠ ['0']) ∨
      rest.head? ∈ [some '.', some 'e', some 'E']) := by
    rintro (empty | ⟨zero, longer⟩ | fraction)
    · exact Nat.toDigits_ne_nil empty
    · exact longer (leading_zero n zero)
    · exact delimited_not_fraction delimited fraction
  simp only [readNat, List.takeWhile_append_of_pos digits, List.dropWhile_append_of_pos digits,
    none_taken, none_dropped, List.append_nil, if_neg plain, Nat.ofDigitChars_ten_toDigits]

/-- A natural number's text is not a minus sign's. -/
theorem read_natural (n : Nat) (rest : List Char) :
    readInt (Nat.toDigits 10 n ++ rest) =
      (readNat (Nat.toDigits 10 n ++ rest)).map fun (n, rest) => ((n : Int), rest) := by
  cases written : Nat.toDigits 10 n with
  | nil => exact absurd written Nat.toDigits_ne_nil
  | cons c digits =>
    have digit : c.isDigit = true :=
      Nat.isDigit_of_mem_toDigits (by decide) (by decide) (written ▸ List.mem_cons_self)
    rw [List.cons_append, readInt]
    intro rest same
    obtain rfl : c = '-' := (List.cons.inj same).1
    cases digit

theorem read_int (n : Int) {rest : List Char} (delimited : Delimited rest) :
    readInt (intText n ++ rest) = some (n, rest) := by
  unfold intText
  split
  · rename_i negative
    have whole : -(n.natAbs : Int) = n := by omega
    rw [List.cons_append, readInt, read_nat _ delimited]
    exact congrArg some (congrArg (·, rest) whole)
  · rename_i natural
    have whole : (n.natAbs : Int) = n := by omega
    rw [read_natural, read_nat _ delimited]
    exact congrArg some (congrArg (·, rest) whole)

/-- A number begins with a minus sign or a digit. -/
theorem int_head (n : Int) : ∃ c digits, intText n = c :: digits ∧ (c = '-' ∨ c.isDigit = true) := by
  unfold intText
  split
  · exact ⟨'-', _, rfl, Or.inl rfl⟩
  · cases written : Nat.toDigits 10 n.natAbs with
    | nil => exact absurd written Nat.toDigits_ne_nil
    | cons c digits =>
      exact ⟨c, digits, rfl, Or.inr
        (Nat.isDigit_of_mem_toDigits (by decide) (by decide) (written ▸ List.mem_cons_self))⟩

end Numbers

section RoundTrip

mutual

/- No object inside the value names a field twice. -/
def Value.Distinct : Value → Prop
  | .arr items => itemsDistinct items
  | .obj fields => (fields.map Prod.fst).Nodup ∧ fieldsDistinct fields
  | _ => True

def itemsDistinct : List Value → Prop
  | [] => True
  | v :: rest => v.Distinct ∧ itemsDistinct rest

def fieldsDistinct : List (String × Value) → Prop
  | [] => True
  | (_, v) :: rest => v.Distinct ∧ fieldsDistinct rest

end

theorem dict_append (kept fields : List (String × Value))
    (distinct : ((kept ++ fields).map Prod.fst).Nodup) :
    fields.foldl (fun kept field => upsert Prod.fst (fun _ new => new) field kept) kept =
      kept ++ fields := by
  induction fields generalizing kept with
  | nil => rw [List.foldl_nil, List.append_nil]
  | cons field fields later =>
    have fresh : upsert Prod.fst (fun _ new => new) field kept = kept ++ [field] := by
      rw [List.map_append, List.map_cons, List.nodup_append] at distinct
      refine if_neg fun present => ?_
      obtain ⟨row, among, same⟩ := List.any_eq_true.mp present
      exact distinct.2.2 _ (List.mem_map_of_mem among) _ List.mem_cons_self (of_decide_eq_true same)
    rw [List.foldl_cons, fresh, later, List.append_assoc, List.singleton_append]
    rwa [List.append_assoc, List.singleton_append]

theorem dict_distinct {fields : List (String × Value)} (distinct : (fields.map Prod.fst).Nodup) :
    dict fields = fields :=
  dict_append [] fields distinct

theorem skip_plain {c : Char} (plain : isSpace c = false) (rest : List Char) :
    skip (c :: rest) = c :: rest := by
  rw [skip, List.dropWhile_cons, plain, if_neg Bool.false_ne_true]

theorem skip_blank (spaced : Bool) (rest : List Char) : skip (blank spaced ++ rest) = skip rest := by
  cases spaced <;> rfl

theorem digit_not_space {c : Char} (digit : c.isDigit = true) : isSpace c = false := by
  refine decide_eq_false fun among => ?_
  fin_cases among <;> cases digit

/-- A value's text begins with a character that is no blank and closes nothing. -/
theorem text_head (spaced : Bool) (v : Value) :
    ∃ c tail, text spaced v = c :: tail ∧ isSpace c = false ∧ c ≠ ']' := by
  cases v with
  | null => exact ⟨'n', _, rfl, rfl, by decide⟩
  | bool b => cases b <;> exact ⟨_, _, rfl, rfl, by decide⟩
  | int n =>
    obtain ⟨c, digits, written, first⟩ := int_head n
    refine ⟨c, digits, written, ?_, ?_⟩
    · rcases first with rfl | digit
      · rfl
      · exact digit_not_space digit
    · rintro rfl
      cases first with
      | inl minus => cases minus
      | inr digit => cases digit
  | str s => exact ⟨'"', _, rfl, rfl, by decide⟩
  | arr items => cases items <;> exact ⟨'[', _, rfl, rfl, by decide⟩
  | obj fields => cases fields <;> exact ⟨'\x7b', _, rfl, rfl, by decide⟩

theorem skip_text (spaced : Bool) (v : Value) (rest : List Char) :
    skip (text spaced v ++ rest) = text spaced v ++ rest := by
  obtain ⟨c, tail, written, plain, _⟩ := text_head spaced v
  rw [written, List.cons_append, skip_plain plain]

theorem text_pos (spaced : Bool) (v : Value) : 0 < (text spaced v).length := by
  obtain ⟨c, tail, written, _⟩ := text_head spaced v
  rw [written]
  exact Nat.zero_lt_succ _

theorem read_number (n : Int) {rounds : Nat} {given rest : List Char}
    (shown : skip given = intText n ++ rest) (delimited : Delimited rest) :
    readValue (rounds + 1) given = some (.int n, rest) := by
  obtain ⟨c, digits, written, first⟩ := int_head n
  have read := read_int n delimited
  rw [written, List.cons_append] at shown read
  rw [readValue, shown]
  split
  case h_7 => rw [read]; rfl
  all_goals
    rename_i letters
    obtain rfl := (List.cons.inj letters).1
    rcases first with minus | digit
    · cases minus
    · cases digit

theorem items_delimited (spaced : Bool) (items : List Value) (rest : List Char) :
    Delimited (itemsText spaced items ++ rest) := by
  cases items with
  | nil => exact delimited_cons _ (Or.inr (Or.inl rfl))
  | cons v items => exact delimited_cons _ (Or.inl rfl)

theorem fields_delimited (spaced : Bool) (fields : List (String × Value)) (rest : List Char) :
    Delimited (fieldsText spaced fields ++ rest) := by
  cases fields with
  | nil => exact delimited_cons _ (Or.inr (Or.inr rfl))
  | cons field fields => exact delimited_cons _ (Or.inl rfl)

theorem read_array {rounds : Nat} {c : Char} {v : Value} {items : List Value}
    {given shown inner after rest : List Char} (bracket : skip given = '[' :: inner)
    (kept : skip inner = c :: shown) (open_item : c ≠ ']')
    (first : readValue rounds (c :: shown) = some (v, after))
    (others : readItems rounds after = some (items, rest)) :
    readValue (rounds + 1) given = some (.arr (v :: items), rest) := by
  simp only [readValue, bracket, kept]
  split
  · rename_i closing
    exact absurd (List.cons.inj closing).1 open_item
  · simp only [first, others, Option.bind_eq_bind, Option.bind_some]

theorem read_object {rounds : Nat} {field : String × Value} {fields : List (String × Value)}
    {given shown inner after rest : List Char} (brace : skip given = '\x7b' :: inner)
    (kept : skip inner = '"' :: shown) (first : readField rounds ('"' :: shown) = some (field, after))
    (others : readFields rounds after = some (fields, rest)) :
    readValue (rounds + 1) given = some (.obj (dict (field :: fields)), rest) := by
  simp only [readValue, brace, kept]
  split
  · rename_i closing
    cases (List.cons.inj closing).1
  · simp only [first, others, Option.bind_eq_bind, Option.bind_some]

theorem string_text (s : String) (rest : List Char) :
    stringText s ++ rest = '"' :: (s.toList.flatMap escapeChar ++ '"' :: rest) := by
  rw [stringText, List.cons_append, List.cons_append, List.append_assoc, List.singleton_append]

mutual

/-- A value's text reads back, wherever what follows it delimits it. -/
theorem read_text (spaced : Bool) : ∀ (v : Value) {rounds : Nat} {given rest : List Char},
    v.Distinct → skip given = text spaced v ++ rest → Delimited rest →
      (text spaced v).length ≤ rounds → readValue rounds given = some (v, rest)
  | v, 0, _, _, _, _, _, enough => absurd (text_pos spaced v) (Nat.not_lt.mpr enough)
  | .null, rounds + 1, given, rest, _, shown, _, _ => by
    simp only [text, List.cons_append, List.nil_append] at shown
    simp only [readValue, shown]
  | .bool b, rounds + 1, given, rest, _, shown, _, _ => by
    cases b <;>
    · simp only [text, List.cons_append, List.nil_append] at shown
      simp only [readValue, shown]
  | .int n, rounds + 1, given, rest, _, shown, delimited, _ => read_number n shown delimited
  | .str s, rounds + 1, given, rest, _, shown, _, _ => by
    rw [text, string_text] at shown
    simp only [readValue, shown, read_string, Option.map_some]
  | .arr [], rounds + 1, given, rest, _, shown, _, _ => by
    simp only [text, List.cons_append, List.nil_append] at shown
    simp only [readValue, shown, skip_plain (rfl : isSpace ']' = false)]
  | .arr (v :: items), rounds + 1, given, rest, distinct, shown, _, enough => by
    simp only [text, List.cons_append, List.append_assoc] at shown
    simp only [text, List.length_cons, List.length_append] at enough
    obtain ⟨c, tail, written, _, open_item⟩ := text_head spaced v
    have kept := skip_text spaced v (itemsText spaced items ++ rest)
    have first := read_text spaced v distinct.1 kept (items_delimited spaced items rest)
      (by omega : _ ≤ rounds)
    have others := read_items spaced items rest distinct.2 (by omega : _ ≤ rounds)
    rw [written, List.cons_append] at shown kept first
    exact read_array shown kept open_item first others
  | .obj [], rounds + 1, given, rest, _, shown, _, _ => by
    simp only [text, List.cons_append, List.nil_append] at shown
    simp only [readValue, shown, skip_plain (rfl : isSpace '\x7d' = false)]
  | .obj ((k, v) :: fields), rounds + 1, given, rest, distinct, shown, _, enough => by
    simp only [text, List.cons_append, List.append_assoc] at shown
    simp only [text, List.length_cons, List.length_append, stringText, separator] at enough
    have kept : skip (stringText k ++ (separator spaced ':' ++ (text spaced v ++
        (fieldsText spaced fields ++ rest)))) = stringText k ++ (separator spaced ':' ++
          (text spaced v ++ (fieldsText spaced fields ++ rest))) := by
      rw [string_text, skip_plain rfl]
    have first := read_field spaced v k distinct.2.1 kept (fields_delimited spaced fields rest)
      (by omega : _ < rounds)
    have others := read_fields spaced fields rest distinct.2.2 (by omega : _ ≤ rounds)
    rw [string_text] at shown kept first
    rw [← dict_distinct distinct.1]
    exact read_object shown kept first others

theorem read_items (spaced : Bool) : ∀ (items : List Value) {rounds : Nat} (rest : List Char),
    itemsDistinct items → (itemsText spaced items).length ≤ rounds →
      readItems rounds (itemsText spaced items ++ rest) = some (items, rest)
  | [], 0, _, _, enough => absurd enough (Nat.not_succ_le_zero 0)
  | [], rounds + 1, rest, _, _ => rfl
  | v :: items, 0, _, _, enough => absurd enough (Nat.not_succ_le_zero _)
  | v :: items, rounds + 1, rest, distinct, enough => by
    simp only [itemsText, separator, List.length_cons, List.length_append] at enough
    have shown : skip (blank spaced ++ (text spaced v ++ (itemsText spaced items ++ rest))) =
        text spaced v ++ (itemsText spaced items ++ rest) := by
      rw [skip_blank, skip_text]
    have first := read_text spaced v distinct.1 shown (items_delimited spaced items rest)
      (by omega : _ ≤ rounds)
    have others := read_items spaced items rest distinct.2 (by omega : _ ≤ rounds)
    simp only [itemsText, separator, List.cons_append, List.append_assoc, readItems,
      skip_plain (rfl : isSpace ',' = false), first, others, Option.bind_eq_bind, Option.bind_some]

theorem read_field (spaced : Bool) : ∀ (v : Value) (k : String) {rounds : Nat}
    {given rest : List Char}, v.Distinct →
      skip given = stringText k ++ (separator spaced ':' ++ (text spaced v ++ rest)) →
      Delimited rest → (text spaced v).length < rounds →
        readField rounds given = some ((k, v), rest)
  | v, k, 0, _, _, _, _, _, enough => absurd enough (Nat.not_lt_zero _)
  | v, k, rounds + 1, given, rest, distinct, shown, delimited, enough => by
    rw [string_text] at shown
    have value : skip (blank spaced ++ (text spaced v ++ rest)) = text spaced v ++ rest := by
      rw [skip_blank, skip_text]
    have read := read_text spaced v distinct value delimited (Nat.le_of_lt_succ enough)
    simp only [readField, shown, read_string, separator, List.cons_append,
      skip_plain (rfl : isSpace ':' = false), read, Option.bind_eq_bind, Option.bind_some]

theorem read_fields (spaced : Bool) : ∀ (fields : List (String × Value)) {rounds : Nat}
    (rest : List Char), fieldsDistinct fields → (fieldsText spaced fields).length ≤ rounds →
      readFields rounds (fieldsText spaced fields ++ rest) = some (fields, rest)
  | [], 0, _, _, enough => absurd enough (Nat.not_succ_le_zero 0)
  | [], rounds + 1, rest, _, _ => rfl
  | (k, v) :: fields, 0, _, _, enough => absurd enough (Nat.not_succ_le_zero _)
  | (k, v) :: fields, rounds + 1, rest, distinct, enough => by
    simp only [fieldsText, separator, stringText, List.length_cons, List.length_append] at enough
    have shown : skip (blank spaced ++ (stringText k ++ (separator spaced ':' ++ (text spaced v ++
        (fieldsText spaced fields ++ rest))))) = stringText k ++ (separator spaced ':' ++
          (text spaced v ++ (fieldsText spaced fields ++ rest))) := by
      rw [skip_blank, string_text, skip_plain rfl]
    have first := read_field spaced v k distinct.1 shown (fields_delimited spaced fields rest)
      (by omega : _ < rounds)
    have others := read_fields spaced fields rest distinct.2 (by omega : _ ≤ rounds)
    simp only [fieldsText, separator, List.cons_append, List.append_assoc, readFields,
      skip_plain (rfl : isSpace ',' = false)]
    simp only [separator, List.cons_append] at first
    simp only [first, others, Option.bind_eq_bind, Option.bind_some]

end

/-- What is dumped, with or without blanks, is loaded again. -/
theorem loads_dumps (spaced : Bool) {v : Value} (distinct : v.Distinct) :
    loads (dumps spaced v) = some v := by
  have shown : skip (text spaced v) = text spaced v ++ [] := by
    have kept := skip_text spaced v []
    rwa [List.append_nil] at kept ⊢
  have open_end : Delimited [] := fun c at_head => by cases at_head
  simp only [loads, dumps, String.toList_ofList,
    read_text spaced v distinct shown open_end (Nat.le_succ _)]
  rfl

end RoundTrip

section Sorting

/- The keys of every object inside the value are distinct and in order. -/
mutual

def Value.Sorted : Value → Prop
  | .arr items => itemsSorted items
  | .obj fields => (fields.map Prod.fst).Pairwise (· ≤ ·) ∧ (fields.map Prod.fst).Nodup ∧
    fieldsSorted fields
  | _ => True

def itemsSorted : List Value → Prop
  | [] => True
  | v :: rest => v.Sorted ∧ itemsSorted rest

def fieldsSorted : List (String × Value) → Prop
  | [] => True
  | (_, v) :: rest => v.Sorted ∧ fieldsSorted rest

end

mutual

theorem sorted_distinct : ∀ v : Value, v.Sorted → v.Distinct
  | .null, _ | .bool _, _ | .int _, _ | .str _, _ => trivial
  | .arr items, sorted => items_sorted_distinct items sorted
  | .obj fields, sorted => ⟨sorted.2.1, fields_sorted_distinct fields sorted.2.2⟩

theorem items_sorted_distinct : ∀ items : List Value, itemsSorted items → itemsDistinct items
  | [], _ => trivial
  | v :: rest, sorted => ⟨sorted_distinct v sorted.1, items_sorted_distinct rest sorted.2⟩

theorem fields_sorted_distinct : ∀ fields : List (String × Value), fieldsSorted fields →
    fieldsDistinct fields
  | [], _ => trivial
  | (_, v) :: rest, sorted => ⟨sorted_distinct v sorted.1, fields_sorted_distinct rest sorted.2⟩

end

mutual

theorem sort_sorted : ∀ v : Value, v.Sorted → sortKeys v = v
  | .null, _ | .bool _, _ | .int _, _ | .str _, _ => rfl
  | .arr items, sorted => congrArg Value.arr (sort_items_sorted items sorted)
  | .obj fields, sorted => by
    rw [sortKeys, sort_fields_sorted fields sorted.2.2]
    exact congrArg Value.obj (List.Pairwise.insertionSort_eq (List.pairwise_map.mp sorted.1))

theorem sort_items_sorted : ∀ items : List Value, itemsSorted items → sortItems items = items
  | [], _ => rfl
  | v :: rest, sorted => by
    rw [sortItems, sort_sorted v sorted.1, sort_items_sorted rest sorted.2]

theorem sort_fields_sorted : ∀ fields : List (String × Value), fieldsSorted fields →
    sortFields fields = fields
  | [], _ => rfl
  | (_, v) :: rest, sorted => by
    rw [sortFields, sort_sorted v sorted.1, sort_fields_sorted rest sorted.2]

end

end Sorting

end JsonText
