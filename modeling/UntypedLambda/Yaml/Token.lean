import Std.Data.TreeMap
import UntypedLambda.Yaml.Comment
import UntypedLambda.Yaml.Scalar

/-! # The tokens of a YAML text

Indentation becomes brackets: where a block collection starts or ends there is a token for it.
A key without a mark of its own is recognised by the colon behind it, so its token is put in
front of what was read since.  Tokens are read when they are asked for, and two further ones with
them; a token that may turn out to start a key is held back until that is known. -/
set_option autoImplicit false

namespace UntypedLambda.Yaml

inductive Token.Kind where
  | streamStart | streamEnd | documentStart | documentEnd
  | sequenceStart | mappingStart | blockEnd
  | flowSequenceStart | flowSequenceEnd | flowMappingStart | flowMappingEnd
  | entry | separator | key | value
  | scalar (quoted : Bool) (text : String)
deriving DecidableEq, Repr, Inhabited

structure Token where
  kind : Token.Kind
  mark : Mark
deriving DecidableEq, Repr, Inhabited

/-- A place where a key may have started: the number of its first token, and whether a key is
required there. -/
structure Candidate where
  number : Nat := 0
  isOpen : Bool := false
  required : Bool := false
  mark : Mark := {}
deriving DecidableEq, Repr, Inhabited

/-- The scanner between two tokens.  Of the tokens read, `taken` have been handed out and `queue`
has the others.  `indents` are the columns of the open block collections, innermost first.  There
is a key candidate for each level of brackets, the outermost first; `held` maps the number of a
token to the level of the candidate that holds it back. -/
structure Scanner where
  cursor : Cursor
  queue : Array Token := #[⟨.streamStart, {}⟩]
  taken : Nat := 0
  flow : Nat := 0
  keyAllowed : Bool := true
  indents : List Nat := []
  indentCount : Nat := 0
  candidates : Array Candidate := #[{}]
  held : Std.TreeMap Nat Nat := {}

namespace Scanner

def mark (s : Scanner) : Mark := s.cursor.mark

/-- The column of the innermost block collection, minus one outside of all. -/
def indent (s : Scanner) : Int :=
  match s.indents with
  | [] => -1
  | n :: _ => n

/-- The number that the next token will have. -/
def nextNumber (s : Scanner) : Nat := s.taken + s.queue.size

def emit (s : Scanner) (kind : Token.Kind) : Scanner :=
  { s with queue := s.queue.push ⟨kind, s.mark⟩ }

/-- Puts a token in front of the one with a given number, or at the end if that has been handed
out. -/
def insertAt (s : Scanner) (number : Nat) (token : Token) : Scanner :=
  let position := if s.taken ≤ number then number - s.taken else s.queue.size
  { s with
    queue :=
      (s.queue.extract 0 position).push token ++ s.queue.extract position s.queue.size }

def skip (s : Scanner) (n : Nat) : Scanner := { s with cursor := Cursor.skipMany n s.cursor }

/-! ## Key candidates -/

def candidate (s : Scanner) : Candidate := s.candidates.back?.getD {}

def setCandidate (s : Scanner) (c : Candidate) : Scanner :=
  { s with candidates := s.candidates.pop.push c }

def noColon (s : Scanner) (c : Candidate) : Problem :=
  .scanning "could not find expected ':'" c.mark s.mark

/-- Gives the candidate up, which must not be a required one. -/
def dropCandidate (s : Scanner) : Except Problem Scanner :=
  let c := s.candidate
  if !c.isOpen then .ok s
  else if c.required then .error (s.noColon c)
  else .ok { s.setCandidate { c with isOpen := false } with held := s.held.erase c.number }

/-- Notes that a key may start here. -/
def noteCandidate (s : Scanner) : Except Problem Scanner :=
  if s.keyAllowed then do
    let found : Candidate :=
      { number := s.nextNumber
        isOpen := true
        required := s.flow == 0 && s.indent == s.mark.col
        mark := s.mark }
    let s := (← s.dropCandidate).setCandidate found
    return { s with held := s.held.insert found.number (s.candidates.size - 1) }
  else .ok s

/-- Whether a candidate can still become a key, which has one line and at most 1024 characters. -/
def canBeKey (s : Scanner) (c : Candidate) : Except Problem Bool :=
  if !c.isOpen then .ok false
  else if c.mark.line < s.mark.line || c.mark.index + 1024 < s.mark.index then
    if c.required then .error (s.noColon c) else .ok false
  else .ok true

/-! ## Indentation -/

/-- How deep collections may be nested. -/
def deepest : Nat := 10000

def tooDeep (s : Scanner) : Problem :=
  .scanning ("exceeded max depth of " ++ toString deepest) s.candidate.mark s.mark

/-- Opens a block collection at a column, if that is further in.  Its token goes in front of the
one with a given number. -/
def roll (s : Scanner) (number : Nat) (kind : Token.Kind) (mark : Mark) : Except Problem Scanner :=
  if s.flow = 0 && s.indent < mark.col then
    if deepest ≤ s.indentCount then .error s.tooDeep
    else
      .ok { s.insertAt number ⟨kind, mark⟩ with
        indents := mark.col :: s.indents, indentCount := s.indentCount + 1 }
  else .ok s

/-- The columns up to a given one, and how many were left out. -/
def closeBlocks (col : Int) (closed : Nat) : List Nat → List Nat × Nat
  | [] => ([], closed)
  | n :: rest => if col < n then closeBlocks col (closed + 1) rest else (n :: rest, closed)

/-- Closes the block collections that are further in than a column. -/
def unroll (s : Scanner) (col : Int) : Scanner :=
  if s.flow = 0 then
    let (left, closed) := closeBlocks col 0 s.indents
    { s with
      indents := left
      indentCount := s.indentCount - closed
      queue := s.queue ++ Array.replicate closed ⟨.blockEnd, s.mark⟩ }
  else s

/-! ## Tokens -/

def streamEnd (s : Scanner) : Except Problem Scanner := do
  -- The end of the text counts as the start of a new line.
  let m := s.mark
  let m : Mark := if m.col = 0 then m else ⟨m.line + 1, 0, m.index⟩
  let s := { s with cursor := { s.cursor with mark := m } }
  let s ← (s.unroll (-1)).dropCandidate
  return { s.emit .streamEnd with keyAllowed := false }

def documentMark (s : Scanner) (kind : Token.Kind) : Except Problem Scanner := do
  let s ← (s.unroll (-1)).dropCandidate
  return { s.emit kind with keyAllowed := false }.skip 3

def openFlow (s : Scanner) (kind : Token.Kind) : Except Problem Scanner := do
  let s ← s.noteCandidate
  let level : Candidate := { number := s.nextNumber, mark := s.mark }
  let s := { s with flow := s.flow + 1, candidates := s.candidates.push level }
  if deepest < s.flow then throw s.tooDeep
  return { s.emit kind with keyAllowed := true }.skip 1

/-- Closes a pair of brackets.  What the last candidate in them held back is free now. -/
def closeFlow (s : Scanner) (kind : Token.Kind) : Except Problem Scanner := do
  let s ← s.dropCandidate
  let s :=
    if s.flow = 0 then s
    else
      { s with
        flow := s.flow - 1
        held := s.held.erase s.candidate.number
        candidates := s.candidates.pop }
  return { s.emit kind with keyAllowed := false }.skip 1

def flowSeparator (s : Scanner) : Except Problem Scanner := do
  let s ← s.dropCandidate
  return { s.emit .separator with keyAllowed := true }.skip 1

def blockEntry (s : Scanner) : Except Problem Scanner := do
  if s.flow = 0 && !s.keyAllowed then
    throw (.scanning "block sequence entries are not allowed in this context" s.mark s.mark)
  let s ← (← s.roll s.nextNumber .sequenceStart s.mark).dropCandidate
  return { s.emit .entry with keyAllowed := true }.skip 1

def explicitKey (s : Scanner) : Except Problem Scanner := do
  if s.flow = 0 && !s.keyAllowed then
    throw (.scanning "mapping keys are not allowed in this context" s.mark s.mark)
  let s ← (← s.roll s.nextNumber .mappingStart s.mark).dropCandidate
  return { s.emit .key with keyAllowed := s.flow == 0 }.skip 1

def valueMark (s : Scanner) : Except Problem Scanner := do
  let c := s.candidate
  if ← s.canBeKey c then
    let s ← (s.insertAt c.number ⟨.key, c.mark⟩).roll c.number .mappingStart c.mark
    let s := { s.setCandidate { c with isOpen := false } with held := s.held.erase c.number }
    return { s.emit .value with keyAllowed := false }.skip 1
  let s := s.setCandidate { c with isOpen := false }
  if s.flow = 0 && !s.keyAllowed then
    throw (.scanning "mapping values are not allowed in this context" s.mark s.mark)
  let s ← s.roll s.nextNumber .mappingStart s.mark
  return { s.emit .value with keyAllowed := s.flow == 0 }.skip 1

def blockScalarToken (s : Scanner) (literal : Bool) : Except Problem Scanner := do
  let s ← s.dropCandidate
  let (text, cursor) ← blockScalar literal s.indent s.cursor
  return { s.emit (.scalar true text) with keyAllowed := true, cursor := cursor }

def quotedToken (s : Scanner) (q : Quote) : Except Problem Scanner := do
  let s ← s.noteCandidate
  let (text, cursor) ← quoted q s.cursor
  return { s.emit (.scalar true text) with keyAllowed := false, cursor := cursor }

def plainToken (s : Scanner) : Except Problem Scanner := do
  let s ← s.noteCandidate
  let found ← plain (s.flow != 0) s.indent s.cursor
  return { s.emit (.scalar false found.text) with
    keyAllowed := found.broken, cursor := found.cursor }

/-- The characters that do not start a plain scalar by themselves. -/
def isIndicator (c : Char) : Bool := "-?:,[]\x7b\x7d#&*!|>'\"%@".toList.contains c || c.toNat == 96

def startsPlain (s : Scanner) (c : Char) (rest : List Char) : Bool :=
  !(isIndicator c || isBlank c || isBreak c)
    || (c == '-' && !(rest.head?.any isBlank))
    || (s.flow == 0 && (c == '?' || c == ':') && !atSpace rest)

/-- Reads the token at the cursor, where there is a character `c`. -/
def token (s : Scanner) (c : Char) (rest : List Char) : Except Problem Scanner :=
  let spaced := atSpace rest
  if c == '[' then s.openFlow .flowSequenceStart
  else if c.toNat == 0x7B then s.openFlow .flowMappingStart
  else if c == ']' then s.closeFlow .flowSequenceEnd
  else if c.toNat == 0x7D then s.closeFlow .flowMappingEnd
  else if c == ',' then s.flowSeparator
  else if c == '-' && spaced then s.blockEntry
  else if c == '?' && (s.flow != 0 || spaced) then s.explicitKey
  else if c == ':' && (s.flow != 0 || spaced) then s.valueMark
  else if c == '|' && s.flow == 0 then s.blockScalarToken true
  else if c == '>' && s.flow == 0 then s.blockScalarToken false
  else if c == '\'' then s.quotedToken .single
  else if c == '"' then s.quotedToken .double
  else if !(s.mark.col == 0 && c == '%') && s.startsPlain c rest then s.plainToken
  else .error (.scanning "found character that cannot start any token" s.mark s.mark)

/-- Takes a comment behind a token.  One behind an entry mark belongs to the entry. -/
def commentBehind (s : Scanner) : Except Problem Scanner := do
  if s.queue.back?.any (·.kind == .entry) then return s
  return { s with cursor := ← s.cursor.lineComment }

/-- Reads one token, with those that it brings about. -/
def advance (s : Scanner) : Except Problem Scanner := do
  let cursor ← s.cursor.need 1
  let (keyAllowed, cursor) ← cursor.toToken (s.flow != 0) cursor.room s.keyAllowed
  let s := { s with keyAllowed := keyAllowed, cursor := cursor }.unroll cursor.mark.col
  let s := { s with cursor := ← s.cursor.need 4 }
  match s.cursor.rest with
  | [] => s.streamEnd
  | c :: rest =>
    if isDocumentMark s.cursor then
      s.documentMark (if c == '-' then .documentStart else .documentEnd)
    else (← s.token c rest).commentBehind

/-- Closes the candidate that holds a token back, if it can no longer become a key. -/
def release (s : Scanner) (level : Nat) : Except Problem (Bool × Scanner) :=
  match s.candidates[level]? with
  | none => .ok (true, s)
  | some c => do
    if ← s.canBeKey c then return (false, s)
    let closed := s.candidates.setIfInBounds level { c with isOpen := false }
    return (true, { s with candidates := closed })

/-- Reads tokens until there are three, and the first of them is not held back.  Each takes at
least one character as long as there is one. -/
def prepare : (fuel : Nat) → Scanner → Except Problem Scanner
  | 0, s => .ok s
  | fuel + 1, s => do
    if s.queue.size < 3 then return ← prepare fuel (← s.advance)
    match s.held[s.taken]? with
    | none => return s
    | some level =>
      let (free, s) ← s.release level
      if free then return s
      prepare fuel (← s.advance)

end Scanner

end UntypedLambda.Yaml
