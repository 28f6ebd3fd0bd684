/-! # Integer numerals

An optional sign, then digits: hexadecimal after `0x`, octal after `0o` or a plain `0`, binary
after `0b`, decimal otherwise.  Underscores may stand between digits.  Values have 64 bits. -/
set_option autoImplicit false

namespace UntypedLambda.Number

inductive NumeralError where
  | malformed | outOfRange
deriving DecidableEq, Repr, Inhabited

/-- The number of values that 63 bits have. -/
def half : Nat := 9223372036854775808

/-- The number of values that 64 bits have. -/
def full : Nat := 18446744073709551616

/-- The number of 64 bits, the first of them a sign, that an integer becomes when its further
binary digits are lost. -/
def word (n : Int) : Int := n.bmod full

def digit? (c : Char) : Option Nat :=
  if '0' ≤ c ∧ c ≤ '9' then some (c.toNat - 48)
  else if 'a' ≤ c ∧ c ≤ 'z' then some (c.toNat - 87)
  else if 'A' ≤ c ∧ c ≤ 'Z' then some (c.toNat - 55)
  else none

/-- The value of a run of digits, in which underscores are passed over. -/
def digits (base value : Nat) : List Char → Except NumeralError Nat
  | [] => .ok value
  | '_' :: rest => digits base value rest
  | c :: rest =>
    match digit? c with
    | none => .error .malformed
    | some d =>
      if base ≤ d then .error .malformed
      else if full ≤ base * value + d then .error .outOfRange
      else digits base (base * value + d) rest

/-- Each underscore stands between two digits; `digitBefore` says that one precedes the text. -/
def underscoresFit (digitBefore : Bool) : List Char → Bool
  | [] => true
  | ['_'] => false
  | '_' :: '_' :: _ => false
  | '_' :: rest => digitBefore && underscoresFit true rest
  | _ :: rest => underscoresFit true rest

/-- A numeral without a sign, below 2^64. -/
def natural (s : List Char) : Except NumeralError Nat :=
  let (base, afterMark, body) : Nat × Bool × List Char :=
    match s with
    | '0' :: c :: d :: rest =>
      if c = 'x' ∨ c = 'X' then (16, true, d :: rest)
      else if c = 'o' ∨ c = 'O' then (8, true, d :: rest)
      else if c = 'b' ∨ c = 'B' then (2, true, d :: rest)
      else (8, true, c :: d :: rest)
    | '0' :: rest => (8, true, rest)
    | _ => (10, false, s)
  if s.isEmpty then .error .malformed
  else do
    let value ← digits base 0 body
    if underscoresFit afterMark body then .ok value else .error .malformed

/-- The sign in front of a numeral, if there is one, and the rest. -/
def splitSign (s : List Char) : Bool × List Char :=
  match s with
  | '-' :: rest => (true, rest)
  | '+' :: rest => (false, rest)
  | _ => (false, s)

/-- A number with a sign, from -2^63 up to below 2^63. -/
def signed (negative : Bool) (value : Nat) : Except NumeralError Int :=
  if negative then if value ≤ half then .ok (-(value : Int)) else .error .outOfRange
  else if value < half then .ok value
  else .error .outOfRange

/-- A numeral with an optional sign, from -2^63 up to below 2^63. -/
def integer (s : List Char) : Except NumeralError Int := do
  let (negative, body) := splitSign s
  signed negative (← natural body)

/-- Digits to a given base with an optional sign in front, within the same bounds. -/
def integerInBase (base : Nat) (s : List Char) : Except NumeralError Int := do
  let (negative, body) := splitSign s
  if body.isEmpty then throw .malformed
  signed negative (← digits base 0 body)

end UntypedLambda.Number
