import UntypedLambda.Number.Decimal

/-! # Dates and times

A date is written `year-month-day`, and may be followed by a time of day: behind a `T` with a
time zone, or behind blanks without one. -/
set_option autoImplicit false

namespace UntypedLambda.Yaml.Timestamp

/-- One or two digits in front of a text, and what is left of it. -/
def field? (s : List Char) : Option (Nat × List Char) :=
  match s with
  | a :: b :: rest =>
    if !Number.Decimal.isDigit a then none
    else if Number.Decimal.isDigit b then some (Number.Decimal.value [a, b], rest)
    else some (Number.Decimal.value [a], b :: rest)
  | [a] => if Number.Decimal.isDigit a then some (Number.Decimal.value [a], []) else none
  | [] => none

/-- What is left behind a character that has to be there. -/
def behind? (c : Char) (s : List Char) : Option (List Char) :=
  match s with
  | d :: rest => if d = c then some rest else none
  | [] => none

/-! ## Dates -/

def isLeapYear (year : Nat) : Bool := year % 4 == 0 && (year % 100 != 0 || year % 400 == 0)

def daysIn (year month : Nat) : Nat :=
  if month = 2 then if isLeapYear year then 29 else 28
  else if month = 4 ∨ month = 6 ∨ month = 9 ∨ month = 11 then 30
  else 31

/-- What is left behind a date.  The year has four digits. -/
def date? (s : List Char) : Option (List Char) := do
  let digits := s.takeWhile Number.Decimal.isDigit
  if digits.length ≠ 4 then failure
  let year := Number.Decimal.value digits
  let (month, rest) ← field? (← behind? '-' (s.drop 4))
  let (day, rest) ← field? (← behind? '-' rest)
  if 1 ≤ month ∧ month ≤ 12 ∧ 1 ≤ day ∧ day ≤ daysIn year month then some rest else none

/-! ## Times -/

/-- What is left behind a fraction of a second, which may be missing. -/
def skipFraction (s : List Char) : List Char :=
  match s with
  | c :: d :: rest =>
    if (c == '.' || c == ',') && Number.Decimal.isDigit d then
      rest.dropWhile Number.Decimal.isDigit
    else s
  | _ => s

/-- What is left behind a time of day. -/
def time? (s : List Char) : Option (List Char) := do
  let (hour, rest) ← field? s
  let (minute, rest) ← field? (← behind? ':' rest)
  let (second, rest) ← field? (← behind? ':' rest)
  if hour < 24 ∧ minute < 60 ∧ second < 60 then some (skipFraction rest) else none

/-- `Z`, or a sign with hours and minutes of two digits each. -/
def isZone (s : List Char) : Bool :=
  match s with
  | ['Z'] => true
  | [sign, a, b, ':', c, d] =>
    (sign == '+' || sign == '-') && [a, b, c, d].all Number.Decimal.isDigit
      && Number.Decimal.value [a, b] ≤ 24 && Number.Decimal.value [c, d] ≤ 60
  | _ => false

/-- Whether a text is a date, or a date and a time. -/
def isTimestamp (s : List Char) : Bool :=
  match date? s with
  | none => false
  | some [] => true
  | some (c :: rest) =>
    if c == 'T' || c == 't' then (time? rest).any isZone
    else c == ' ' && (time? (rest.dropWhile (· == ' '))).any (·.isEmpty)

end UntypedLambda.Yaml.Timestamp
