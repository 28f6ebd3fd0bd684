import UntypedLambda.Release.Version
import UntypedLambda.Text.Replace

/-! # Version constraints

A constraint is a choice between groups; a version has to meet every comparison of one group.
A comparison whose version leaves numbers out, or writes `x` or `*` for them, is open at those
places. -/
set_option autoImplicit false

namespace UntypedLambda.Release

inductive Operator where
  | equal | notEqual | greater | less | greaterEqual | lessEqual | tilde | caret
deriving DecidableEq, Repr, Inhabited

/-- From which place on a version is open. -/
inductive Openness where
  | closed | patch | minor | major
deriving DecidableEq, Repr, Inhabited

/-- `written` is the version as it stands in the constraint. -/
structure Comparison where
  operator : Operator
  written : String
  version : Version
  openness : Openness
deriving DecidableEq, Repr, Inhabited

inductive ConstraintError where
  | improper (piece : String)
  | noVersion
deriving DecidableEq, Repr, Inhabited

def ConstraintError.message : ConstraintError → String
  | .improper piece => "improper constraint: " ++ piece
  | .noVersion => "constraint Parser Error"

structure Constraint where
  groups : List (List Comparison)
deriving DecidableEq, Repr, Inhabited

/-! ## Reading -/

def isSpace (c : Char) : Bool := c == ' ' || c == '\t' || c == '\n' || c == '\r' || c.toNat == 12

def skipSpaces (s : List Char) : List Char := s.dropWhile isSpace

/-- The operators as they are written, the longer ones first. -/
def operators : List (String × Operator) :=
  [("!=", .notEqual), (">=", .greaterEqual), ("=>", .greaterEqual), ("<=", .lessEqual),
   ("=<", .lessEqual), ("~>", .tilde), ("=", .equal), (">", .greater), ("<", .less),
   ("~", .tilde), ("^", .caret)]

/-- The operator in front of a text; without one it is equality. -/
def operator (s : List Char) : Operator × List Char :=
  match operators.find? (·.1.toList.isPrefixOf s) with
  | some (mark, op) => (op, s.drop mark.length)
  | none => (.equal, s)

def isOpenNumberChar (c : Char) : Bool :=
  isDigit c || c == '|' || c == 'x' || c == 'X' || c == '*'

def openVersion? (s : List Char) : Option (Parts × List Char) := parts? isOpenNumberChar s

def comparison? (s : List Char) : Option ((Operator × Parts) × List Char) := do
  let (op, s) := operator s
  let (version, s) ← openVersion? (skipSpaces s)
  return ((op, version), s)

/-- The comparisons of a group from the front of a text to its end.  Between them there is white
space or a comma. -/
def group? : (fuel : Nat) → List Char → Option (List (Operator × Parts))
  | 0, _ => none
  | fuel + 1, s => do
    let (first, rest) ← comparison? (skipSpaces s)
    match skipSpaces rest with
    | [] => return [first]
    | c :: behind =>
      if c = ',' then return first :: (← group? fuel behind)
      else if rest.head?.any isSpace then return first :: (← group? fuel (c :: behind))
      else none

/-! ### Ranges -/

/-- `low - high` with the white space around it. -/
structure Range where
  covered : List Char
  low : String
  high : String

def range? (s : List Char) : Option (Range × List Char) := do
  let before := s.takeWhile isSpace
  let (low, s) ← openVersion? (skipSpaces s)
  let (left, s) ← run? isSpace s
  let s ← if s.head? == some '-' then some s.tail else none
  let (right, s) ← run? isSpace s
  let (high, s) ← openVersion? s
  let range : Range :=
    { covered :=
        before ++ low.text.toList ++ left ++ ['-'] ++ right ++ high.text.toList
          ++ s.takeWhile isSpace
      low := low.text
      high := high.text }
  return (range, skipSpaces s)

/-- What is left of a text in which no range starts at the front.  Then none starts at the next
place either, as long as that is in the same run of white space or of a number. -/
def nextPlace (s : List Char) : List Char :=
  match s with
  | [] => []
  | c :: rest =>
    if isSpace c then skipSpaces rest
    else if isOpenNumberChar c then rest.dropWhile isOpenNumberChar
    else rest

/-- All ranges from left to right. -/
def ranges : (fuel : Nat) → List Char → List Range
  | 0, _ => []
  | _ + 1, [] => []
  | fuel + 1, s =>
    match range? s with
    | some (found, rest) => found :: ranges fuel rest
    | none => ranges fuel (nextPlace s)

/-- Writes every range as two comparisons. -/
def withoutRanges (s : List Char) : List Char :=
  (ranges s.length s).foldl
    (fun text r =>
      Text.replaceFirst r.covered (">= " ++ r.low ++ ", <= " ++ r.high ++ " ").toList text)
    s

/-! ### Comparisons -/

def isWild (s : String) : Bool := s == "x" || s == "X" || s == "*"

/-- The comparison with a version as it is written, with zeros in the open places. -/
def Comparison.ofParts (operator : Operator) (p : Parts) : Except ConstraintError Comparison :=
  let label := if p.label = "" then "" else "-" ++ p.label
  let minor := p.minor.getD "x"
  let patch := p.patch.getD "x"
  let (openness, text) : Openness × String :=
    if isWild p.major then (.major, "0.0.0" ++ label)
    else if isWild minor then (.minor, p.major ++ ".0.0" ++ label)
    else if isWild patch then (.patch, p.major ++ "." ++ minor ++ ".0" ++ label)
    else (.closed, p.text)
  match Version.ofText text with
  | .ok v => .ok ⟨operator, p.text, v, openness⟩
  | .error _ => .error .noVersion

def readGroup (piece : List Char) : Except ConstraintError (List Comparison) :=
  match group? (piece.length + 1) piece with
  | none => .error (.improper (String.ofList piece))
  | some found => found.mapM fun (operator, parts) => Comparison.ofParts operator parts

def Constraint.ofText (s : String) : Except ConstraintError Constraint := do
  return ⟨← (Text.splitAtBars (withoutRanges s.toList)).mapM readGroup⟩

/-! ## Checking -/

namespace Comparison

def isOpen (c : Comparison) : Bool := c.openness != .closed

def tildeFault (c : Comparison) (v : Version) : Option String :=
  let w := c.version
  if v.order w = .lt then some "is less than"
  else if w.major = 0 ∧ w.minor = 0 ∧ w.patch = 0 ∧ c.openness ≠ .minor ∧ c.openness ≠ .patch then
    none
  else if v.major ≠ w.major then some "does not have same major version as"
  else if v.minor ≠ w.minor ∧ c.openness ≠ .minor then
    some "does not have same major and minor version as"
  else none

def equalFault (c : Comparison) (v : Version) : Option String :=
  if c.isOpen then c.tildeFault v
  else if v.order c.version = .eq then none
  else some "is not equal to"

def notEqualFault (c : Comparison) (v : Version) : Option String :=
  let w := c.version
  let same : Option String := some "is equal to"
  let closed : Option String := if v.order w = .eq then same else none
  if !c.isOpen then closed
  else if v.major ≠ w.major then none
  else if c.openness = .minor then same
  else if v.minor ≠ w.minor then none
  else if c.openness = .patch then
    if v.label = "" ∧ w.label = "" then same
    else if Version.compareLabels v.label w.label = .eq then same
    else none
  else if v.patch ≠ w.patch then none
  else closed

def greaterFault (c : Comparison) (v : Version) : Option String :=
  let w := c.version
  let fault : Option String := some "is less than or equal to"
  let closed : Option String := if v.order w = .gt then none else fault
  if !c.isOpen then closed
  else if w.major < v.major then none
  else if v.major < w.major then fault
  else if c.openness = .minor then fault
  else if c.openness = .patch then if w.minor < v.minor then none else fault
  else closed

def lessEqualFault (c : Comparison) (v : Version) : Option String :=
  let w := c.version
  let fault : Option String := some "is greater than"
  if !c.isOpen then if v.order w = .gt then fault else none
  else if w.major < v.major then fault
  else if v.major = w.major ∧ w.minor < v.minor ∧ c.openness ≠ .minor then fault
  else none

/-- What is wrong, in front of the version written and behind it. -/
def caretFault (c : Comparison) (v : Version) : Option (String × String) :=
  let w := c.version
  let differentMajor : Option (String × String) := some ("does not have same major version as", "")
  if v.order w = .lt then some ("is less than", "")
  else if 0 < w.major ∨ c.openness = .minor then
    if v.major = w.major then none else differentMajor
  else if 0 < v.major then differentMajor
  else if 0 < w.minor ∨ c.openness = .patch then
    if v.minor = w.minor then none
    else
      some ("does not have same minor version as",
        ". Expected minor versions to match when constraint major version is 0")
  else if 0 < v.minor then some ("does not have same minor version as", "")
  else if v.patch = w.patch then none
  else
    some ("does not equal",
      ". Expect version and constraint to equal when major and minor versions are 0")

/-- The message about a version that does not meet the comparison. -/
def fault? (c : Comparison) (v : Version) : Option String :=
  let plain (fault : Option String) : Option (String × String) := fault.map (·, "")
  let fault : Option (String × String) :=
    match c.operator with
    | .equal => plain (c.equalFault v)
    | .notEqual => plain (c.notEqualFault v)
    | .greater => plain (c.greaterFault v)
    | .less => if v.order c.version = .lt then none else some ("is greater than or equal to", "")
    | .greaterEqual => if v.order c.version = .lt then some ("is less than", "") else none
    | .lessEqual => plain (c.lessEqualFault v)
    | .tilde => plain (c.tildeFault v)
    | .caret => c.caretFault v
  fault.map fun f => v.text ++ " " ++ f.1 ++ " " ++ c.written ++ f.2

/-- A version with a label meets only comparisons that have a label themselves. -/
def excludesLabel (c : Comparison) (v : Version) : Bool := c.version.label = "" && v.label ≠ ""

end Comparison

namespace Constraint

/-- What is known while comparisons are checked: the messages so far, and whether the one on
labels is among them, which is given once. -/
structure Findings where
  messages : List String := []
  labelNoted : Bool := false
  met : Bool := true

def Findings.check (v : Version) (f : Findings) (c : Comparison) : Findings :=
  if c.excludesLabel v then
    let note := v.text
      ++ " is a prerelease version and the constraint is only looking for release versions"
    { messages := if f.labelNoted then f.messages else f.messages ++ [note]
      labelNoted := true
      met := false }
  else
    match c.fault? v with
    | none => f
    | some message => { f with messages := f.messages ++ [message], met := false }

/-- Checks the groups in order until one is met. -/
def checkGroups (v : Version) (f : Findings) : List (List Comparison) → Findings
  | [] => { f with met := false }
  | group :: groups =>
    let f := group.foldl (Findings.check v) { f with met := true }
    if f.met then f else checkGroups v f groups

/-- Nothing if the version satisfies the constraint, otherwise what is wrong with it. -/
def faults? (c : Constraint) (v : Version) : Option (List String) :=
  let f := checkGroups v {} c.groups
  if f.met then none else some f.messages

end Constraint

end UntypedLambda.Release
