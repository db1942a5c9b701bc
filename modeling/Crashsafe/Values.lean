import Mathlib

/- The Python values that cross the engine, its database and the tool: JSON, floats and
   aware UTC datetimes. A datetime is its number of microseconds since year 1. -/
namespace Crashsafe

/- A JSON column or body stands for the value its text decodes to. An object lists its
   fields sorted by key, which is how `sort_keys=True` writes every stored object. -/
inductive Json where
  | null
  | bool (b : Bool)
  | num (q : Rat)
  | nan
  | inf (negative : Bool)
  | str (s : String)
  | arr (items : List Json)
  | obj (fields : List (String × Json))
  deriving Repr, Inhabited

def Json.number : Json → Option Rat
  | .bool b => some (if b then 1 else 0)
  | .num q => some q
  | _ => none

mutual

/-- Python's `==` of decoded objects: numbers and booleans compare by value. `json.loads` has
    one NaN for all, and a container finds an item equal to itself before it compares. -/
def Json.pyEq : Json → Json → Bool
  | .null, .null => true
  | .nan, .nan => true
  | .str a, .str b => a == b
  | .inf a, .inf b => a == b
  | .arr xs, .arr ys => Json.pyEqItems xs ys
  | .obj fs, .obj gs => Json.pyEqFields fs gs
  | a, b => match a.number, b.number with
    | some p, some q => p == q
    | _, _ => false

def Json.pyEqItems : List Json → List Json → Bool
  | [], [] => true
  | x :: xs, y :: ys => x.pyEq y && Json.pyEqItems xs ys
  | _, _ => false

def Json.pyEqFields : List (String × Json) → List (String × Json) → Bool
  | [], [] => true
  | (k, v) :: fs, (l, w) :: gs => k == l && v.pyEq w && Json.pyEqFields fs gs
  | _, _ => false

end

mutual

@[simp] theorem Json.py_eq_self : ∀ j : Json, j.pyEq j = true
  | .null | .nan => rfl
  | .bool b => by simp [Json.pyEq, Json.number]
  | .num q => by simp [Json.pyEq, Json.number]
  | .inf negative => by simp [Json.pyEq]
  | .str s => by simp [Json.pyEq]
  | .arr items => by simp [Json.pyEq, Json.py_eq_items_self items]
  | .obj fields => by simp [Json.pyEq, Json.py_eq_fields_self fields]

theorem Json.py_eq_items_self : ∀ items : List Json, Json.pyEqItems items items = true
  | [] => rfl
  | item :: rest => by simp [Json.pyEqItems, Json.py_eq_self item, Json.py_eq_items_self rest]

theorem Json.py_eq_fields_self : ∀ fields : List (String × Json), Json.pyEqFields fields fields = true
  | [] => rfl
  | (k, v) :: rest => by simp [Json.pyEqFields, Json.py_eq_self v, Json.py_eq_fields_self rest]

end

/-- `dict.get` on a decoded object. -/
def Json.get? (key : String) : Json → Option Json
  | .obj fields => (fields.find? fun f => f.1 == key).map Prod.snd
  | _ => none

/-- The first separator of a text splits it in one way only. -/
theorem separator_inj {c : Char} {xs ys as bs : List Char} (none : c ∉ xs) (none' : c ∉ ys)
    (same : xs ++ c :: as = ys ++ c :: bs) : xs = ys ∧ as = bs := by
  induction xs generalizing ys with
  | nil =>
    cases ys with
    | nil => exact ⟨rfl, (List.cons.inj same).2⟩
    | cons y ys =>
      obtain rfl := (List.cons.inj same).1
      simp at none'
  | cons x xs ih =>
    cases ys with
    | nil =>
      obtain rfl := (List.cons.inj same).1
      simp at none
    | cons y ys =>
      obtain ⟨first, later⟩ := List.cons.inj same
      obtain ⟨lists, rest⟩ := ih (fun h => none (List.mem_cons_of_mem x h))
        (fun h => none' (List.mem_cons_of_mem y h)) later
      exact ⟨by rw [first, lists], rest⟩

inductive PyFloat where
  | nan
  | inf (negative : Bool)
  | finite (q : Rat)
  deriving DecidableEq, Repr

def roundHalfEven (q : Rat) : Int :=
  let below := q.floor
  let rest := q - below
  if rest < 1 / 2 then below
  else if 1 / 2 < rest then below + 1
  else if below % 2 = 0 then below
  else below + 1

/-- The largest `e` with `2 ^ e ≤ |q|`, for `q` other than 0. -/
def floorLog2 (q : Rat) : Int :=
  let e : Int := Nat.log2 q.num.natAbs - Nat.log2 q.den
  if (2 : Rat) ^ e ≤ |q| then e else e - 1

/-- The double nearest to `q`, for a `q` that none is too small to be near; -1022 is the least
    exponent of a normal one. -/
def nearestDouble (q : Rat) : Rat :=
  let ulp : Rat := 2 ^ (max (floorLog2 q) (-1022) - 52)
  roundHalfEven (q / ulp) * ulp

/-- The float that a computation with the exact result `q` gives. -/
def roundToDouble (q : Rat) : PyFloat :=
  if 2 ^ 1024 ≤ |nearestDouble q| then .inf (nearestDouble q < 0) else .finite (nearestDouble q)

/- Python's `<`, which is false of a NaN. -/
def PyFloat.lt : PyFloat → PyFloat → Bool
  | .nan, _ | _, .nan => false
  | .inf a, .inf b => a && !b
  | .inf a, .finite _ => a
  | .finite _, .inf b => !b
  | .finite p, .finite q => p < q

/- Python's `min(x, y)`. -/
def PyFloat.min (x y : PyFloat) : PyFloat := if y.lt x then y else x

/-- `x * 2 ** k`. -/
def PyFloat.scale (x : PyFloat) (k : Int) : PyFloat :=
  match x with
  | .finite q => roundToDouble (q * 2 ^ k)
  | x => x

/- `datetime.min` is 0; the last instant is 9999-12-31T23:59:59.999999. -/
abbrev Datetime := Int

def maxDatetime : Datetime := 315537897599999999

/- `timedelta.max` is one microsecond less than a billion days. -/
def timedeltaBound : Int := 86400000000000000000

/-- The microseconds of `q` seconds. Whole seconds are exact; their fraction is multiplied as a
    double, whose nearest integer is taken. -/
def microseconds (q : Rat) : Int :=
  let whole := q.num.tdiv q.den
  whole * 1000000 + roundHalfEven (nearestDouble ((q - whole) * 1000000))

/-- `timedelta(seconds=s)` in microseconds; `none` is the exception it raises on a NaN, an
    infinity or a value out of its range. -/
def timedelta : PyFloat → Option Int
  | .finite q =>
    let us := microseconds q
    if 86400000000 - timedeltaBound ≤ us ∧ us < timedeltaBound then some us else none
  | _ => none

example : [2.5e-6, -1.5, 0.1].map (fun q => microseconds (nearestDouble q)) = [2, -1500000, 100000] := by
  decide +kernel

/-- `t + timedelta(seconds=s)`; `none` when either part of it raises. -/
def Datetime.plusSeconds (t : Datetime) (s : PyFloat) : Option Datetime :=
  match timedelta s with
  | none => none
  | some us => if 0 ≤ t + us ∧ t + us ≤ maxDatetime then some (t + us) else none

end Crashsafe
