import UntypedLambda.Error

/-! # Scanning

Source text becomes a list of pieces: tokens, and characters that start no token, which are
reported and skipped.  Blanks and comments leave no piece.  A word is a maximal run. -/
set_option autoImplicit false

namespace UntypedLambda

def isLower (c : Char) : Bool := 'a' ≤ c && c ≤ 'z'

def isDigit (c : Char) : Bool := '0' ≤ c && c ≤ '9'

def isWordChar (c : Char) : Bool := isLower c || isDigit c

namespace Token

inductive Piece where
  | token (t : Token)
  | bad (e : LexError)
deriving DecidableEq, Repr, Inhabited

/-- A token that starts at `col` of `line` and covers `chars`. -/
def covering (kind : Kind) (chars : List Char) (line col : Nat) : Token :=
  ⟨kind, String.ofList chars, line, col, chars.length⟩

def word (chars : List Char) (line col : Nat) : Token :=
  covering (Kind.ofWord (String.ofList chars)) chars line col

/-- The kind of a token of one character, newline apart. -/
def mark? : Char → Option Kind
  | '(' => some .lparen
  | ')' => some .rparen
  | 'λ' => some .lambda
  | '\\' => some .lambda
  | '.' => some .dot
  | '=' => some .equals
  | _ => none

def isBlank (c : Char) : Bool := c == ' ' || c == '\t' || c == '\r'

/-- The pieces of `source`, whose first character stands at `col` of `line`. -/
def pieces (line col : Nat) (source : List Char) : List Piece :=
  match source with
  | [] => []
  | c :: rest =>
    if isLower c then
      let run := rest.takeWhile isWordChar
      .token (word (c :: run) line col)
        :: pieces line (col + 1 + run.length) (rest.dropWhile isWordChar)
    else if c = '\n' then
      .token (covering .newline [c] line col) :: pieces (line + 1) 1 rest
    else if c = '#' then
      let run := rest.takeWhile (· != '\n')
      pieces line (col + 1 + run.length) (rest.dropWhile (· != '\n'))
    else if isBlank c then
      pieces line (col + 1) rest
    else
      match mark? c with
      | some kind => .token (covering kind [c] line col) :: pieces line (col + 1) rest
      | none => .bad ⟨line, col, c⟩ :: pieces line (col + 1) rest
termination_by source.length
decreasing_by
  · exact Nat.lt_succ_of_le (List.dropWhile_suffix isWordChar).length_le
  · exact Nat.lt_succ_self _
  · exact Nat.lt_succ_of_le (List.dropWhile_suffix (· != '\n')).length_le
  · exact Nat.lt_succ_self _
  · exact Nat.lt_succ_self _
  · exact Nat.lt_succ_self _

def Piece.token? : Piece → Option Token
  | .token t => some t
  | .bad _ => none

def Piece.bad? : Piece → Option LexError
  | .token _ => none
  | .bad e => some e

/-- Line and column just behind `source`. -/
def endOf (line col : Nat) : List Char → Nat × Nat
  | [] => (line, col)
  | c :: rest => if c = '\n' then endOf (line + 1) 1 rest else endOf line (col + 1) rest

/-- The marks that close every source: a newline, unless the last token is one already, and
the end of input. -/
def closing (last : Option Token) (place : Nat × Nat) : List Token :=
  let eof : Token := ⟨.eof, "", place.1, place.2, 0⟩
  if last.any (·.kind == .newline) then [eof]
  else [⟨.newline, "<newline>", place.1, place.2, 0⟩, eof]

structure Scan where
  tokens : List Token
  errors : List LexError
deriving DecidableEq, Repr, Inhabited

def scan (source : String) : Scan :=
  let found := pieces 1 1 source.toList
  let tokens := found.filterMap Piece.token?
  { tokens := tokens ++ closing tokens.getLast? (endOf 1 1 source.toList)
    errors := found.filterMap Piece.bad? }

end Token

end UntypedLambda
