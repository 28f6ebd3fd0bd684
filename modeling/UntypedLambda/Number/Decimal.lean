import UntypedLambda.Number.Integer

/-! # Decimal numerals and their nearest binary values

A decimal numeral is read as the nearest number with 53 binary digits, a half going to the even
neighbour, and may then be cut down to an integer. -/
set_option autoImplicit false

namespace UntypedLambda.Number

/-- `digits * 10 ^ exponent`, or its negative.  `length` is the number of digits written. -/
structure Decimal where
  negative : Bool
  digits : Nat
  length : Nat
  exponent : Int
deriving DecidableEq, Repr, Inhabited

namespace Decimal

/-! ## Reading -/

def isDigit (c : Char) : Bool := '0' ≤ c && c ≤ '9'

def value (ds : List Char) : Nat := ds.foldl (fun n c => 10 * n + (c.toNat - 48)) 0

/-- The part behind `e`: a sign and at least one digit. -/
def exponent? (s : List Char) : Option Int :=
  let (negative, ds) : Bool × List Char :=
    match s with
    | '-' :: rest => (true, rest)
    | '+' :: rest => (false, rest)
    | _ => (false, s)
  if ds.isEmpty || !ds.all isDigit then none
  else some (if negative then -(value ds : Int) else value ds)

/-- Reads digits with an optional point among them and an optional exponent. -/
def ofText (s : List Char) : Option Decimal :=
  let (negative, s) : Bool × List Char :=
    match s with
    | '-' :: rest => (true, rest)
    | '+' :: rest => (false, rest)
    | _ => (false, s)
  let before := s.takeWhile isDigit
  let s := s.dropWhile isDigit
  let (after, s) : List Char × List Char :=
    match s with
    | '.' :: rest => (rest.takeWhile isDigit, rest.dropWhile isDigit)
    | _ => ([], s)
  let exponent : Option Int :=
    match s with
    | [] => some 0
    | c :: rest => if c = 'e' ∨ c = 'E' then exponent? rest else none
  if before.isEmpty && after.isEmpty then none
  else
    exponent.map fun e =>
      { negative := negative
        digits := value (before ++ after)
        length := (before ++ after).length
        exponent := e - after.length }

/-- Each underscore stands between two digits; `afterDigit` says that one precedes the text. -/
def separatorsFit (afterDigit : Bool) : List Char → Bool
  | [] => true
  | '_' :: rest => afterDigit && rest.head?.any isDigit && separatorsFit false rest
  | c :: rest => separatorsFit (isDigit c) rest

/-- Reads a numeral in which underscores may separate digits. -/
def ofSeparated (s : List Char) : Option Decimal :=
  if separatorsFit false s then ofText (s.filter (· ≠ '_')) else none

/-! ## Rounding -/

/-- `num / den` rounded to an integer, a half to the even neighbour. -/
def roundDiv (num den : Nat) : Nat :=
  let q := num / den
  let twice := 2 * (num % den)
  if den < twice || (twice == den && q % 2 == 1) then q + 1 else q

/-- The size of a number: a positive numerator and denominator. -/
def fraction (d : Decimal) : Nat × Nat :=
  if 0 ≤ d.exponent then (d.digits * Nat.pow 10 d.exponent.toNat, 1)
  else (d.digits, Nat.pow 10 (-d.exponent).toNat)

/-- The nearest number with 53 binary digits, as `m * 2 ^ e`. -/
def nearest (num den : Nat) : Nat × Int :=
  let scaled (e : Int) : Nat × Nat :=
    if 0 ≤ e then (num, den * Nat.pow 2 e.toNat) else (num * Nat.pow 2 (-e).toNat, den)
  let guess : Int := (num.log2 : Int) - den.log2 - 53
  let fits (e : Int) : Bool := (scaled e).1 / (scaled e).2 < Nat.pow 2 53
  let e := if fits guess then guess else guess + 1
  (roundDiv (scaled e).1 (scaled e).2, e)

/-- The integer part of the nearest binary value, without the sign, or none if the number is
beyond the largest such value. -/
def magnitude? (d : Decimal) : Option Nat :=
  if d.digits = 0 then some 0
  else if 400 < d.exponent + d.length then none
  else if d.exponent + d.length < 0 then some 0
  else
    let (m, e) := nearest d.fraction.1 d.fraction.2
    if 0 ≤ e then
      let n := m * Nat.pow 2 e.toNat
      if n < Nat.pow 2 1024 then some n else none
    else some (m / Nat.pow 2 (-e).toNat)

end Decimal

end UntypedLambda.Number
