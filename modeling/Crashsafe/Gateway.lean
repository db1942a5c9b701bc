import Crashsafe.Engine

/- The HTTP boundary of the engine: Python's `float` on a header, and what HttpToolGateway
   makes of the outcome of a call. -/
namespace Crashsafe

section Float

/- The zeros of Unicode's decimal digits; nine more digits follow each. -/
def decimalZeros : List Nat :=
  [0x30, 0x660, 0x6f0, 0x7c0, 0x966, 0x9e6, 0xa66, 0xae6, 0xb66, 0xbe6, 0xc66, 0xce6, 0xd66, 0xde6,
    0xe50, 0xed0, 0xf20, 0x1040, 0x1090, 0x17e0, 0x1810, 0x1946, 0x19d0, 0x1a80, 0x1a90, 0x1b50,
    0x1bb0, 0x1c40, 0x1c50, 0xa620, 0xa8d0, 0xa900, 0xa9d0, 0xa9f0, 0xaa50, 0xabf0, 0xff10, 0x104a0,
    0x10d30, 0x11066, 0x110f0, 0x11136, 0x111d0, 0x112f0, 0x11450, 0x114d0, 0x11650, 0x116c0,
    0x11730, 0x118e0, 0x11950, 0x11c50, 0x11d50, 0x11da0, 0x16a60, 0x16ac0, 0x16b50, 0x1d7ce,
    0x1d7d8, 0x1d7e2, 0x1d7ec, 0x1d7f6, 0x1e140, 0x1e2f0, 0x1e950, 0x1fbf0]

def digit? (c : Char) : Option Nat :=
  (decimalZeros.find? fun first => first ≤ c.toNat ∧ c.toNat < first + 10).map fun first =>
    c.toNat - first

/- `float` does not strip the ASCII separators that `str.strip` does. -/
def isFloatSpace (c : Char) : Bool :=
  c.toNat ∈ [0x9, 0xa, 0xb, 0xc, 0xd, 0x20, 0x85, 0xa0, 0x1680, 0x2028, 0x2029, 0x202f, 0x205f,
    0x3000] ∨ (0x2000 ≤ c.toNat ∧ c.toNat ≤ 0x200a)

/-- The digits that may follow a digit, single underscores between them. -/
def moreDigits : List Char → List Nat × List Char
  | '_' :: c :: rest =>
    match digit? c with
    | some n => ((moreDigits rest).map (n :: ·) id)
    | none => ([], '_' :: c :: rest)
  | c :: rest =>
    match digit? c with
    | some n => ((moreDigits rest).map (n :: ·) id)
    | none => ([], c :: rest)
  | [] => ([], [])

/-- `digitpart`, which may be missing. -/
def digitPart : List Char → List Nat × List Char
  | c :: rest =>
    match digit? c with
    | some n => ((moreDigits rest).map (n :: ·) id)
    | none => ([], c :: rest)
  | [] => ([], [])

def ofDigits (digits : List Nat) : Nat := digits.foldl (fun n digit => 10 * n + digit) 0

def sign : List Char → Bool × List Char
  | '-' :: rest => (true, rest)
  | '+' :: rest => (false, rest)
  | text => (false, text)

/-- `number`: the digits read as one integer and how many of them stand after the point. -/
def number (text : List Char) : Option (Nat × Nat × List Char) :=
  let (whole, rest) := digitPart text
  match rest with
  | '.' :: rest =>
    let (fraction, rest) := digitPart rest
    if whole = [] ∧ fraction = [] then none
    else some (ofDigits (whole ++ fraction), fraction.length, rest)
  | rest => if whole = [] then none else some (ofDigits whole, 0, rest)

/-- `[exponent]`, to the end of the text. -/
def exponent : List Char → Option Int
  | [] => some 0
  | c :: rest =>
    if c = 'e' ∨ c = 'E' then
      let (negative, rest) := sign rest
      match digitPart rest with
      | ([], _) => none
      | (digits, []) => some (if negative then -(ofDigits digits : Int) else ofDigits digits)
      | _ => none
    else none

def floatNumber (text : List Char) : Option Rat :=
  (number text).bind fun (digits, places, rest) =>
    (exponent rest).map fun e => (digits : Rat) * 10 ^ (e - (places : Int))

def stripFloat (text : List Char) : List Char :=
  ((text.dropWhile isFloatSpace).reverse.dropWhile isFloatSpace).reverse

/-- Python's `float(text)`; `none` is the ValueError. -/
def pyFloat (text : String) : Option PyFloat :=
  let (negative, text) := sign (stripFloat text.toList)
  let word := String.ofList (text.map Char.toLower)
  if word = "nan" then some .nan
  else if word = "inf" ∨ word = "infinity" then some (.inf negative)
  else (floatNumber text).map fun q => roundToDouble (if negative then -q else q)

example : ["1.5", " +1_0. ", "-Infinity", "1e400", "nan", "1__0", "soon"].map pyFloat =
    [some (.finite (3 / 2)), some (.finite 10), some (.inf true), some (.inf false), some .nan, none,
      none] := by
  decide +kernel

end Float

section Execute

structure Response where
  statusCode : Nat
  retryAfter : Option String
  text : String

/- `requestError` is an `httpx.RequestError`. -/
inductive HttpOutcome where
  | requestError (message : String)
  | response (response : Response)

/- What the gateway takes from its libraries: the result that a body parses and validates to. -/
structure GatewayCodec where
  toolResult : String → Option ToolResult

def isServerError (r : Response) : Prop := 500 ≤ r.statusCode ∧ r.statusCode ≤ 599

def isError (r : Response) : Prop := 400 ≤ r.statusCode ∧ r.statusCode ≤ 599

instance (r : Response) : Decidable (isServerError r) := inferInstanceAs (Decidable (_ ∧ _))

instance (r : Response) : Decidable (isError r) := inferInstanceAs (Decidable (_ ∧ _))

/-- `HttpToolGateway.execute` from the outcome of its POST on. -/
def execute (codec : GatewayCodec) : HttpOutcome → Outcome
  | .requestError message => .retryable s!"tool transport error: {message}" none false
  | .response r =>
    if r.statusCode = 429 then
      .retryable "tool throttled the request" (r.retryAfter.bind pyFloat) true
    else if r.statusCode = 409 then
      .permanent "idempotency key was reused with a different request"
    else if isServerError r then .retryable s!"tool returned HTTP {r.statusCode}" none false
    else if isError r then .permanent s!"tool returned HTTP {r.statusCode}: {r.text}"
    else
      match codec.toolResult r.text with
      | some result => .result result
      | none => .raised

end Execute

end Crashsafe
