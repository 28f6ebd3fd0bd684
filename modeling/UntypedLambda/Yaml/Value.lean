import UntypedLambda.Number.Decimal
import UntypedLambda.Yaml.Timestamp

/-! # What plain scalars stand for -/
set_option autoImplicit false

namespace UntypedLambda.Yaml

/-- A number that is written with a point or an exponent, or is too large for 64 bits. -/
inductive Real where
  | finite (negative : Bool) (integerPart : Nat)
  | infinite (negative : Bool)
  | notANumber
deriving DecidableEq, Repr, Inhabited

inductive Value where
  | null
  | bool (b : Bool)
  | int (n : Int)
  | real (x : Real)
  | timestamp
  /-- As a key it stands for the entries of other mappings. -/
  | merge
  | text
deriving DecidableEq, Repr, Inhabited

namespace Value

def tag : Value → String
  | null => "!!null"
  | bool _ => "!!bool"
  | int _ => "!!int"
  | real _ => "!!float"
  | timestamp => "!!timestamp"
  | merge => "!!merge"
  | text => "!!str"

/-- The words that stand for something other than themselves. -/
def words : List (String × Value) :=
  [("", null), ("~", null), ("null", null), ("Null", null), ("NULL", null),
   ("true", bool true), ("True", bool true), ("TRUE", bool true),
   ("false", bool false), ("False", bool false), ("FALSE", bool false),
   (".nan", real .notANumber), (".NaN", real .notANumber), (".NAN", real .notANumber),
   (".inf", real (.infinite false)), (".Inf", real (.infinite false)),
   (".INF", real (.infinite false)), ("+.inf", real (.infinite false)),
   ("+.Inf", real (.infinite false)), ("+.INF", real (.infinite false)),
   ("-.inf", real (.infinite true)), ("-.Inf", real (.infinite true)),
   ("-.INF", real (.infinite true)), ("<<", merge)]

def ofDecimal? (d : Option Number.Decimal) : Option Value := do
  let d ← d
  let n ← d.magnitude?
  return real (.finite d.negative n)

/-- A number with a mark for its base in front of its sign. -/
def ofMarked? (s : List Char) : Option Value :=
  match s with
  | '0' :: 'b' :: rest => (Number.integerInBase 2 rest).toOption.map int
  | '0' :: 'o' :: rest => (Number.integerInBase 8 rest).toOption.map int
  | _ => none

/-- Numbers start with a digit, a sign or a point.  Underscores in them do not count; behind a
point at the start they have to stand between digits. -/
def ofNumeral? (s : List Char) : Option Value :=
  match s with
  | [] => none
  | c :: _ =>
    if c = '.' then ofDecimal? (Number.Decimal.ofSeparated s)
    else if Number.Decimal.isDigit c || c = '+' || c = '-' then
      let plain := s.filter (· ≠ '_')
      if Timestamp.isTimestamp s then some timestamp
      else
        (Number.integer plain).toOption.map int
          <|> (Number.natural plain).toOption.map (int ·)
          <|> ofDecimal? (Number.Decimal.ofText plain)
          <|> ofMarked? plain
    else none

def ofPlain (s : String) : Value :=
  (words.lookup s <|> ofNumeral? s.toList).getD text

/-- The value as an integer of 64 bits.  Reals lose what is behind the point; what is too far
below zero becomes the least integer. -/
def toInt? : Value → Option Int
  | int n => if n < Number.half then some n else none
  | real (.finite negative n) =>
    let x : Int := if negative then -(n : Int) else n
    if Number.half < x then none
    else if -(Number.half : Int) ≤ x ∧ x < Number.half then some x
    else some (-(Number.half : Int))
  | real (.infinite true) => some (-(Number.half : Int))
  | _ => none

/-- The words for true and false, besides the two themselves, where a truth value is wanted. -/
def boolOfWord? (s : String) : Option Bool :=
  if ["y", "Y", "yes", "Yes", "YES", "on", "On", "ON"].contains s then some true
  else if ["n", "N", "no", "No", "NO", "off", "Off", "OFF"].contains s then some false
  else none

end Value

end UntypedLambda.Yaml
