import UntypedLambda.Number.Integer
import UntypedLambda.Text.Blank
import UntypedLambda.Text.Quoted

/-! # Semantic versions

A version has three numbers, an optional pre-release label and optional build metadata.
Versions are ordered by the numbers, then by the label; metadata does not count. -/
set_option autoImplicit false

namespace UntypedLambda.Release

structure Version where
  major : Nat
  minor : Nat
  patch : Nat
  label : String
  metadata : String
deriving DecidableEq, Repr, Inhabited

inductive VersionError where
  | malformed
  | outOfRange (digits : String)
  | leadingZero
deriving DecidableEq, Repr, Inhabited

def VersionError.message : VersionError → String
  | .malformed => "Invalid Semantic Version"
  | .outOfRange digits =>
    "Error parsing version segment: strconv.ParseUint: parsing " ++ Text.quoted digits
      ++ ": value out of range"
  | .leadingZero => "Version segment starts with 0"

/-! ## Parts

What a part looks like is decided by its first character, and each part takes all the characters
that it can: what may follow it begins with a character of another kind. -/

def isDigit (c : Char) : Bool := '0' ≤ c && c ≤ '9'

def isLabelChar (c : Char) : Bool :=
  isDigit c || ('A' ≤ c && c ≤ 'Z') || ('a' ≤ c && c ≤ 'z') || c == '-'

/-- The characters in front of which `p` holds, of which there must be one, and the rest. -/
def run? (p : Char → Bool) (s : List Char) : Option (List Char × List Char) :=
  if s.head?.any p then some (s.takeWhile p, s.dropWhile p) else none

/-- A run behind a mark, or nothing. -/
def runBehind (mark : Char) (p : Char → Bool) (s : List Char) : Option (List Char) × List Char :=
  match s with
  | c :: rest =>
    if c = mark then
      match run? p rest with
      | some (found, rest) => (some found, rest)
      | none => (none, s)
    else (none, s)
  | [] => (none, [])

/-- Further identifiers, each with a dot in front. -/
def dottedMore : (fuel : Nat) → List Char → List Char × List Char
  | 0, s => ([], s)
  | fuel + 1, s =>
    match runBehind '.' isLabelChar s with
    | (none, s) => ([], s)
    | (some found, s) =>
      let (more, s) := dottedMore fuel s
      ('.' :: found ++ more, s)

/-- Identifiers with dots between them behind a mark, or nothing. -/
def suffix (mark : Char) (s : List Char) : String × List Char :=
  match runBehind mark isLabelChar s with
  | (none, s) => ("", s)
  | (some first, s) =>
    let (more, s) := dottedMore s.length s
    (String.ofList (first ++ more), s)

/-- What stands in the places of a version, as text.  `marked` says that there is a `v` in
front. -/
structure Parts where
  marked : Bool
  major : String
  minor : Option String
  patch : Option String
  label : String
  metadata : String

/-- The version as it was written. -/
def Parts.text (p : Parts) : String :=
  let behind (mark s : String) : String := if s = "" then "" else mark ++ s
  (if p.marked then "v" else "") ++ p.major ++ behind "." (p.minor.getD "")
    ++ behind "." (p.patch.getD "") ++ behind "-" p.label ++ behind "+" p.metadata

/-- A version in front of a text whose numbers are made of the characters given. -/
def parts? (isNumberChar : Char → Bool) (s : List Char) : Option (Parts × List Char) := do
  let marked := s.head? == some 'v'
  let s := if marked then s.tail else s
  let (major, s) ← run? isNumberChar s
  let (minor, s) := runBehind '.' isNumberChar s
  let (patch, s) := runBehind '.' isNumberChar s
  let (label, s) := suffix '-' s
  let (metadata, s) := suffix '+' s
  let parts : Parts :=
    { marked := marked
      major := String.ofList major
      minor := minor.map String.ofList
      patch := patch.map String.ofList
      label := label
      metadata := metadata }
  return (parts, s)

namespace Version

/-! ## Reading and writing -/

def value (digits : String) : Nat :=
  digits.toList.foldl (fun n c => 10 * n + (c.toNat - '0'.toNat)) 0

/-- A number below 2^64. -/
def number (digits : String) : Except VersionError Nat :=
  if value digits < Number.full then .ok (value digits) else .error (.outOfRange digits)

/-- The identifiers of a label. -/
def identifiers (label : String) : List String :=
  (Text.splitAt '.' label.toList).map String.ofList

/-- A number in a label must not start with zero. -/
def startsWithZero (identifier : String) : Bool :=
  identifier.toList.all isDigit && 1 < identifier.length && identifier.toList.head? == some '0'

def ofText (s : String) : Except VersionError Version :=
  match parts? isDigit s.toList with
  | some (p, []) => do
    let major ← number p.major
    let minor ← number (p.minor.getD "0")
    let patch ← number (p.patch.getD "0")
    if p.label ≠ "" ∧ (identifiers p.label).any startsWithZero then .error .leadingZero
    else .ok ⟨major, minor, patch, p.label, p.metadata⟩
  | _ => .error .malformed

def text (v : Version) : String :=
  toString v.major ++ "." ++ toString v.minor ++ "." ++ toString v.patch
    ++ (if v.label = "" then "" else "-" ++ v.label)
    ++ (if v.metadata = "" then "" else "+" ++ v.metadata)

/-! ## Order -/

/-- An identifier that is a number below 2^64. -/
def numeric? (identifier : String) : Option Nat :=
  if identifier ≠ "" ∧ identifier.toList.all isDigit ∧ value identifier < Number.full then
    some (value identifier)
  else none

/-- Numbers come before words. -/
def compareIdentifier (a b : String) : Ordering :=
  match numeric? a, numeric? b with
  | some m, some n => compare m n
  | some _, none => .lt
  | none, some _ => .gt
  | none, none => compare a b

/-- The shorter of two lists that agree comes first. -/
def compareIdentifiers : List String → List String → Ordering
  | [], [] => .eq
  | [], _ :: _ => .lt
  | _ :: _, [] => .gt
  | a :: as, b :: bs => (compareIdentifier a b).then (compareIdentifiers as bs)

def compareLabels (a b : String) : Ordering :=
  compareIdentifiers (identifiers a) (identifiers b)

/-- A version with a label comes before the same version without one. -/
def order (v w : Version) : Ordering :=
  (compare v.major w.major).then <|
    (compare v.minor w.minor).then <|
      (compare v.patch w.patch).then <|
        match v.label.isEmpty, w.label.isEmpty with
        | true, true => .eq
        | true, false => .gt
        | false, true => .lt
        | false, false => compareLabels v.label w.label

end Version

end UntypedLambda.Release
