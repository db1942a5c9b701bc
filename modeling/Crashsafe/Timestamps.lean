import Crashsafe.Values

/- Timestamps as the database keeps and compares them: the `isoformat()` text of an aware UTC
   datetime. Text order is time order, although a fraction of zero is left out. -/
namespace Crashsafe

section Calendar

def isLeap (year : Nat) : Bool := year % 4 = 0 && (year % 100 ≠ 0 || year % 400 = 0)

def daysInMonth (year month : Nat) : Nat :=
  if month = 2 then (if isLeap year then 29 else 28)
  else if month = 4 ∨ month = 6 ∨ month = 9 ∨ month = 11 then 30 else 31

def daysBeforeYear (year : Nat) : Nat :=
  (year - 1) * 365 + (year - 1) / 4 - (year - 1) / 100 + (year - 1) / 400

def daysBeforeMonth (year : Nat) : Nat → Nat
  | 0 | 1 => 0
  | month + 2 => daysBeforeMonth year (month + 1) + daysInMonth year (month + 1)

structure Civil where
  year : Nat
  month : Nat
  day : Nat
  hour : Nat
  minute : Nat
  second : Nat
  microsecond : Nat
  yearRange : 1 ≤ year ∧ year ≤ 9999
  monthRange : 1 ≤ month ∧ month ≤ 12
  dayRange : 1 ≤ day ∧ day ≤ daysInMonth year month
  clockRange : hour < 24 ∧ minute < 60 ∧ second < 60 ∧ microsecond < 1000000

def daysBefore (year month day : Nat) : Nat :=
  daysBeforeYear year + daysBeforeMonth year month + (day - 1)

/-- The microseconds a datetime is in this model. -/
def Civil.datetime (c : Civil) : Datetime :=
  ((((daysBefore c.year c.month c.day * 24 + c.hour) * 60 + c.minute) * 60 + c.second) * 1000000 +
    c.microsecond : Nat)

def Civil.fields (c : Civil) : List Nat :=
  [c.year, c.month, c.day, c.hour, c.minute, c.second, c.microsecond]

theorem days_before_next_year {year : Nat} (some : 1 ≤ year) :
    daysBeforeYear (year + 1) = daysBeforeYear year + if isLeap year then 366 else 365 := by
  obtain ⟨past, rfl⟩ := Nat.exists_eq_add_of_le' some
  have centuries : past / 100 ≤ past / 4 := Nat.div_le_div_left (by decide) (by decide)
  have century : 100 ∣ past + 1 → 4 ∣ past + 1 := (by decide : 4 ∣ 100).trans
  have fourth : 400 ∣ past + 1 → 100 ∣ past + 1 := (by decide : 100 ∣ 400).trans
  simp only [daysBeforeYear, isLeap, Nat.add_sub_cancel, Nat.succ_div, Bool.and_eq_true,
    Bool.or_eq_true, decide_eq_true_eq, ne_eq, ← Nat.dvd_iff_mod_eq_zero]
  generalize past / 4 = fours at centuries ⊢
  generalize past / 100 = hundreds at centuries ⊢
  by_cases leap : 4 ∣ past + 1 <;> by_cases full : 100 ∣ past + 1 <;>
    by_cases kept : 400 ∣ past + 1 <;> simp [leap, full, kept] at century fourth ⊢ <;> omega

theorem days_before_years {year later : Nat} (some : 1 ≤ year) (lt : year < later) :
    daysBeforeYear year + (if isLeap year then 366 else 365) ≤ daysBeforeYear later := by
  induction later with
  | zero => omega
  | succ later ih =>
    rcases Nat.lt_succ_iff_lt_or_eq.mp lt with before | rfl
    · have next := days_before_next_year (by omega : 1 ≤ later)
      have := ih before
      omega
    · exact (days_before_next_year some).ge

theorem days_before_months (year : Nat) {month later : Nat} (some : 1 ≤ month) (lt : month < later) :
    daysBeforeMonth year month + daysInMonth year month ≤ daysBeforeMonth year later := by
  induction later with
  | zero => omega
  | succ later ih =>
    obtain ⟨previous, rfl⟩ := Nat.exists_eq_add_of_le' (by omega : 1 ≤ later)
    rcases Nat.lt_succ_iff_lt_or_eq.mp lt with before | rfl
    · have := ih before
      simp only [daysBeforeMonth]
      omega
    · exact le_rfl

theorem days_before_thirteen (year : Nat) :
    daysBeforeMonth year 13 = if isLeap year then 366 else 365 := by
  cases leap : isLeap year <;> simp [daysBeforeMonth, daysInMonth, leap]

theorem days_into_year (c : Civil) :
    daysBeforeMonth c.year c.month + c.day ≤ if isLeap c.year then 366 else 365 := by
  have month := days_before_months c.year c.monthRange.1
    (by have := c.monthRange.2; omega : c.month < 13)
  have day := c.dayRange.2
  rw [days_before_thirteen] at month
  omega

/-- Dates count up in the order of year, month and day. -/
theorem days_before_lt {a b : Civil} (lt : a.year < b.year ∨ a.year = b.year ∧
    (a.month < b.month ∨ a.month = b.month ∧ a.day < b.day)) :
    daysBefore a.year a.month a.day < daysBefore b.year b.month b.day := by
  have day := a.dayRange
  have day' := b.dayRange
  unfold daysBefore
  rcases lt with year | ⟨year, month | ⟨month, days⟩⟩
  · have years := days_before_years a.yearRange.1 year
    have into := days_into_year a
    omega
  · have months := days_before_months b.year a.monthRange.1 month
    rw [year] at day ⊢
    omega
  · rw [year, month]
    omega

/-- Datetimes count up in the order of their fields. -/
theorem datetime_lt {a b : Civil} (lt : a.fields < b.fields) : a.datetime < b.datetime := by
  simp only [Civil.fields, List.cons_lt_cons_iff, List.not_lt_nil, and_false, or_false] at lt
  have clock := a.clockRange
  have clock' := b.clockRange
  apply Int.ofNat_lt.mpr
  by_cases dates : a.year < b.year ∨ a.year = b.year ∧
      (a.month < b.month ∨ a.month = b.month ∧ a.day < b.day)
  · have days := days_before_lt dates
    omega
  · obtain ⟨year, month, day, rest⟩ : a.year = b.year ∧ a.month = b.month ∧ a.day = b.day ∧
        (a.hour < b.hour ∨ a.hour = b.hour ∧ (a.minute < b.minute ∨ a.minute = b.minute ∧
          (a.second < b.second ∨ a.second = b.second ∧ a.microsecond < b.microsecond))) := by
      omega
    rw [year, month, day]
    omega

/-- A count that starts below `n` and ends above it passes it in some step. -/
theorem passes {f : Nat → Nat} {n : Nat} (top : Nat) (start : f 1 ≤ n) (some : 1 ≤ top)
    (bound : n < f (top + 1)) : ∃ k, 1 ≤ k ∧ k ≤ top ∧ f k ≤ n ∧ n < f (k + 1) := by
  induction top, some using Nat.le_induction with
  | base => exact ⟨1, le_rfl, le_rfl, start, bound⟩
  | succ top some ih =>
    by_cases early : n < f (top + 1)
    · obtain ⟨k, low, high, passed⟩ := ih early
      exact ⟨k, low, by omega, passed⟩
    · exact ⟨top + 1, by omega, le_rfl, not_lt.mp early, bound⟩

/-- Every instant of the datetime range has a date and a time of day. -/
theorem civil_exists {t : Datetime} (low : 0 ≤ t) (high : t ≤ maxDatetime) :
    ∃ c : Civil, c.datetime = t := by
  obtain ⟨total, rfl⟩ := Int.eq_ofNat_of_zero_le low
  have bound : total ≤ 315537897599999999 := by
    have inside : (total : Int) ≤ 315537897599999999 := high
    omega
  obtain ⟨year, yearLow, yearHigh, inYear, beforeNext⟩ :=
    passes (f := daysBeforeYear) (n := total / 86400000000) 9999 (by simp [daysBeforeYear])
      (by decide) (by rw [show daysBeforeYear (9999 + 1) = 3652059 from rfl]; omega)
  rw [days_before_next_year yearLow, ← days_before_thirteen] at beforeNext
  obtain ⟨month, monthLow, monthHigh, inMonth, beforeMonth⟩ :=
    passes (f := daysBeforeMonth year) (n := total / 86400000000 - daysBeforeYear year) 12
      (by simp [daysBeforeMonth]) (by decide) (by rw [show 12 + 1 = 13 from rfl]; omega)
  obtain ⟨previous, rfl⟩ := Nat.exists_eq_add_of_le' monthLow
  simp only [daysBeforeMonth] at beforeMonth
  let day := total / 86400000000 - daysBeforeYear year - daysBeforeMonth year (previous + 1) + 1
  refine ⟨⟨year, previous + 1, day, total / 3600000000 % 24, total / 60000000 % 60,
    total / 1000000 % 60, total % 1000000, ⟨yearLow, yearHigh⟩, ⟨monthLow, monthHigh⟩, ?_, ?_⟩, ?_⟩
  · omega
  · omega
  · apply congrArg Int.ofNat
    simp only [daysBefore, day]
    omega

end Calendar

section Text

def digit (n : Nat) : Char := Char.ofNat (48 + n % 10)

/- `format(n, "0wd")` for a number of at most `w` digits. -/
def padded : Nat → Nat → List Char
  | 0, _ => []
  | w + 1, n => digit (n / 10 ^ w) :: padded w (n % 10 ^ w)

def fraction (microsecond : Nat) : List Char :=
  if microsecond = 0 then [] else '.' :: padded 6 microsecond

/-- `isoformat()`, which is what `to_db` writes. -/
def Civil.isoformat (c : Civil) : String :=
  String.ofList (padded 4 c.year ++ '-' :: (padded 2 c.month ++ '-' :: (padded 2 c.day ++
    'T' :: (padded 2 c.hour ++ ':' :: (padded 2 c.minute ++ ':' :: (padded 2 c.second ++
      (fraction c.microsecond ++ "+00:00".toList)))))))

theorem digit_lt {n m : Nat} (lt : n < m) (small : m < 10) : digit n < digit m := by
  interval_cases m <;> interval_cases n <;> decide

theorem padded_lt {w n m : Nat} (lt : n < m) (fits : m < 10 ^ w) (r s : List Char) :
    padded w n ++ r < padded w m ++ s := by
  induction w generalizing n m with
  | zero =>
    simp only [pow_zero] at fits
    omega
  | succ w ih =>
    have positive : 0 < 10 ^ w := by positivity
    have top : m / 10 ^ w < 10 := by
      rw [Nat.div_lt_iff_lt_mul positive, mul_comm]
      simpa [pow_succ] using fits
    simp only [padded, List.cons_append, List.cons_lt_cons_iff]
    rcases Nat.lt_or_eq_of_le (Nat.div_le_div_right (c := 10 ^ w) lt.le) with less | same
    · exact .inl (digit_lt less top)
    · refine .inr ⟨by rw [same], ih ?_ (Nat.mod_lt _ positive)⟩
      have n' := Nat.div_add_mod n (10 ^ w)
      have m' := Nat.div_add_mod m (10 ^ w)
      rw [same] at n'
      omega

theorem fraction_lt {n m : Nat} (lt : n < m) (fits : m < 1000000) :
    fraction n ++ "+00:00".toList < fraction m ++ "+00:00".toList := by
  have some : m ≠ 0 := by omega
  simp only [fraction, if_neg some]
  split
  · -- A missing fraction leaves the plus sign of the offset, which sorts before the dot.
    exact List.cons_lt_cons_iff.mpr (.inl (by decide))
  · exact List.cons_lt_cons_iff.mpr (.inr ⟨rfl, padded_lt lt fits _ _⟩)

theorem isoformat_lt {a b : Civil} (lt : a.fields < b.fields) : a.isoformat < b.isoformat := by
  obtain ⟨hour, minute, second, microsecond⟩ := b.clockRange
  have year := b.yearRange.2
  have month := b.monthRange.2
  have day : b.day ≤ 31 := by
    have bound := b.dayRange.2
    unfold daysInMonth at bound
    split at bound <;> split at bound <;> omega
  simp only [Civil.fields, List.cons_lt_cons_iff, List.not_lt_nil, and_false, or_false] at lt
  rw [String.lt_iff_toList_lt]
  simp only [Civil.isoformat, String.toList_ofList]
  rcases lt with lt | ⟨same, lt⟩
  · exact padded_lt lt (by omega) _ _
  rw [same]
  refine List.append_left_lt (List.cons_lt_cons_self.mpr ?_)
  rcases lt with lt | ⟨same, lt⟩
  · exact padded_lt lt (by omega) _ _
  rw [same]
  refine List.append_left_lt (List.cons_lt_cons_self.mpr ?_)
  rcases lt with lt | ⟨same, lt⟩
  · exact padded_lt lt (by omega) _ _
  rw [same]
  refine List.append_left_lt (List.cons_lt_cons_self.mpr ?_)
  rcases lt with lt | ⟨same, lt⟩
  · exact padded_lt lt (by omega) _ _
  rw [same]
  refine List.append_left_lt (List.cons_lt_cons_self.mpr ?_)
  rcases lt with lt | ⟨same, lt⟩
  · exact padded_lt lt (by omega) _ _
  rw [same]
  refine List.append_left_lt (List.cons_lt_cons_self.mpr ?_)
  rcases lt with lt | ⟨same, lt⟩
  · exact padded_lt lt (by omega) _ _
  rw [same]
  exact List.append_left_lt (fraction_lt lt microsecond)

theorem fields_eq {a b : Civil} (same : a.fields = b.fields) : a = b := by
  simp only [Civil.fields, List.cons.injEq, and_true] at same
  obtain ⟨year, month, day, hour, minute, second, microsecond⟩ := same
  cases a
  cases b
  simp_all

/-- Comparing stored timestamps as text compares the instants. -/
theorem isoformat_lt_iff (a b : Civil) : a.isoformat < b.isoformat ↔ a.datetime < b.datetime := by
  rcases lt_trichotomy a.fields b.fields with lt | same | gt
  · exact iff_of_true (isoformat_lt lt) (datetime_lt lt)
  · rw [fields_eq same]
    simp
  · exact iff_of_false (not_lt_of_gt (isoformat_lt gt)) (not_lt_of_gt (datetime_lt gt))

theorem isoformat_le_iff (a b : Civil) : a.isoformat ≤ b.isoformat ↔ a.datetime ≤ b.datetime := by
  rw [← not_lt, ← not_lt, isoformat_lt_iff]

end Text

section Bytes

def toDb (value : Civil) : String := value.isoformat

/-- The bytes by which SQLite compares a text. -/
def utf8 (text : String) : List UInt8 := text.toUTF8.data.toList

def Ascii (text : List Char) : Prop := ∀ c ∈ text, c.toNat < 128

theorem utf8_ascii {text : String} (ascii : Ascii text.toList) :
    utf8 text = text.toList.map Char.toUInt8 := by
  have encoded : utf8 text = text.toList.flatMap String.utf8EncodeChar := by
    rw [utf8, String.toUTF8_eq_toByteArray, ← String.utf8Encode_toList, List.utf8Encode]
    simp
  have single : ∀ c ∈ text.toList, String.utf8EncodeChar c = [c.toUInt8] := by
    intro c member
    have small : c.val.toNat ≤ 127 := Nat.le_of_lt_succ (ascii c member)
    rw [String.utf8EncodeChar, if_pos small]
    rfl
  rw [encoded, List.flatMap_congr single]
  exact List.map_eq_flatMap.symm

/-- The bytes of two texts of ASCII characters compare as the characters do. -/
theorem utf8_lt_iff {text other : String} (ascii : Ascii text.toList) (ascii' : Ascii other.toList) :
    utf8 text < utf8 other ↔ text < other := by
  rw [utf8_ascii ascii, utf8_ascii ascii', String.lt_iff_toList_lt]
  generalize text.toList = xs at ascii ⊢
  generalize other.toList = ys at ascii' ⊢
  induction xs generalizing ys with
  | nil => cases ys <;> simp
  | cons x xs ih =>
    cases ys with
    | nil => simp
    | cons y ys =>
      have small := ascii x List.mem_cons_self
      have small' := ascii' y List.mem_cons_self
      have rest := ih (fun c member => ascii c (List.mem_cons_of_mem x member)) ys
        fun c member => ascii' c (List.mem_cons_of_mem y member)
      have code : ∀ c : Char, c.toNat < 128 → c.toUInt8.toNat = c.toNat := by
        intro c small
        change c.toNat % 256 = c.toNat
        exact Nat.mod_eq_of_lt (by omega)
      have less : x.toUInt8 < y.toUInt8 ↔ x < y := by
        rw [UInt8.lt_iff_toNat_lt, code x small, code y small']
        exact Iff.rfl
      have same : x.toUInt8 = y.toUInt8 ↔ x = y := by
        rw [← UInt8.toNat_inj, code x small, code y small']
        exact Char.toNat_inj
      rw [List.map_cons, List.map_cons, List.cons_lt_cons_iff, List.cons_lt_cons_iff, less, same, rest]

theorem ascii_append {text rest : List Char} (ascii : Ascii text) (ascii' : Ascii rest) :
    Ascii (text ++ rest) :=
  List.forall_mem_append.mpr ⟨ascii, ascii'⟩

theorem ascii_cons {c : Char} {rest : List Char} (small : c.toNat < 128) (ascii : Ascii rest) :
    Ascii (c :: rest) :=
  List.forall_mem_cons.mpr ⟨small, ascii⟩

theorem padded_ascii (w n : Nat) : Ascii (padded w n) := by
  induction w generalizing n with
  | zero => nofun
  | succ w ih =>
    refine ascii_cons ?_ (ih _)
    have last := Nat.mod_lt (n / 10 ^ w) (by decide : 0 < 10)
    unfold digit
    generalize n / 10 ^ w % 10 = k at last
    interval_cases k <;> decide

theorem isoformat_ascii (c : Civil) : Ascii c.isoformat.toList := by
  have offset : Ascii "+00:00".toList := by simp [Ascii]
  have tail : Ascii (fraction c.microsecond ++ "+00:00".toList) := by
    refine ascii_append ?_ offset
    unfold fraction
    split
    · nofun
    · exact ascii_cons (by decide) (padded_ascii 6 _)
  rw [Civil.isoformat, String.toList_ofList]
  exact ascii_append (padded_ascii 4 _) <| ascii_cons (by decide) <|
    ascii_append (padded_ascii 2 _) <| ascii_cons (by decide) <|
    ascii_append (padded_ascii 2 _) <| ascii_cons (by decide) <|
    ascii_append (padded_ascii 2 _) <| ascii_cons (by decide) <|
    ascii_append (padded_ascii 2 _) <| ascii_cons (by decide) <|
    ascii_append (padded_ascii 2 _) tail

theorem to_db_lt_iff (a b : Civil) : utf8 (toDb a) < utf8 (toDb b) ↔ a.datetime < b.datetime :=
  (utf8_lt_iff (isoformat_ascii a) (isoformat_ascii b)).trans (isoformat_lt_iff a b)

theorem to_db_eq_iff (a b : Civil) : utf8 (toDb a) = utf8 (toDb b) ↔ a.datetime = b.datetime := by
  constructor
  · intro same
    have notBefore := mt (to_db_lt_iff a b).mpr (by rw [same]; exact List.lt_irrefl _)
    have notAfter := mt (to_db_lt_iff b a).mpr (by rw [same]; exact List.lt_irrefl _)
    exact le_antisymm (not_lt.mp notAfter) (not_lt.mp notBefore)
  · intro same
    have text : a.isoformat = b.isoformat :=
      le_antisymm ((isoformat_le_iff a b).mpr same.le) ((isoformat_le_iff b a).mpr same.ge)
    exact congrArg utf8 text

end Bytes

/-- Stored timestamps compare by their bytes as their datetimes do, so that the greatest text of
    any rows is the latest time. -/
theorem to_db_order : (∀ a b : Civil,
      (utf8 (toDb a) < utf8 (toDb b) ↔ a.datetime < b.datetime) ∧
      (utf8 (toDb a) = utf8 (toDb b) ↔ a.datetime = b.datetime) ∧
      (utf8 (toDb b) < utf8 (toDb a) ↔ b.datetime < a.datetime)) ∧
    (∀ (times : List Civil) (latest : Civil),
      (∀ c ∈ times, utf8 (toDb c) ≤ utf8 (toDb latest)) ↔
        ∀ c ∈ times, c.datetime ≤ latest.datetime) ∧
    ∀ t : Datetime, 0 ≤ t → t ≤ maxDatetime → ∃ c : Civil, c.datetime = t := by
  refine ⟨fun a b => ⟨to_db_lt_iff a b, to_db_eq_iff a b, to_db_lt_iff b a⟩, fun times latest => ?_,
    fun t => civil_exists⟩
  apply forall₂_congr
  intro c _
  rw [← List.not_lt, ← not_lt, to_db_lt_iff]

end Crashsafe
