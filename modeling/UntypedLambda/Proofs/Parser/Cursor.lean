import UntypedLambda.Parser
import UntypedLambda.Proofs.Parser.Scopes

/-! # Reading by index

Instead of holding the tokens that are left, a parser may hold all of them and an index, and
descend through the grammar with one procedure for each part of it.  Every access is by index and
has no answer where the index is out of range.  Calls and repetitions spend fuel, and where it is
used up there is no answer either, so a procedure that has the same answer with any fuel from
some amount on comes to an end.  Errors are reported where they arise. -/
set_option autoImplicit false

namespace UntypedLambda

/-- `trail` are the positions so far, the last one first, `reports` the errors so far, the first
one first. -/
structure Cursor where
  tokens : List Token
  position : Nat
  trail : List Nat
  scopes : Scopes
  nextId : Int
  reports : List ParseError

namespace Cursor

/-! ## Access -/

def new (startId : Int) : Cursor := ⟨[], 0, [0], .empty, max startId 1, []⟩

def load (c : Cursor) (tokens : List Token) : Cursor :=
  { c with tokens := tokens, position := 0, trail := [0], scopes := .empty }

def peek (c : Cursor) : Option Token :=
  if c.tokens.isEmpty then some .missing else c.tokens[c.position]?

def atEnd (c : Cursor) : Option Bool :=
  if c.tokens.isEmpty then some true else c.peek.map (·.kind == .eof)

def check (kind : Token.Kind) (c : Cursor) : Option Bool := do
  if ← c.atEnd then return false else return (← c.peek).kind == kind

def checkNext (kind : Token.Kind) (c : Cursor) : Option Bool :=
  if c.tokens.length ≤ c.position + 1 then some false
  else c.tokens[c.position + 1]?.map (·.kind == kind)

def previous (c : Cursor) : Option Token :=
  if c.position = 0 then c.peek else c.tokens[c.position - 1]?

/-- Nothing else changes the position. -/
def moveOn (c : Cursor) : Cursor :=
  { c with position := c.position + 1, trail := (c.position + 1) :: c.trail }

def advance (c : Cursor) : Option (Token × Cursor) := do
  let c := if ← c.atEnd then c else c.moveOn
  return (← c.previous, c)

/-- Takes the token if it is of that kind. -/
def take (kind : Token.Kind) (c : Cursor) : Option (Bool × Cursor) := do
  if ← c.check kind then return (true, (← c.advance).2) else return (false, c)

/-- Reports an error and fails with it. -/
def fail {α : Type} (c : Cursor) (e : ParseError) : Except ParseError α × Cursor :=
  (.error e, { c with reports := c.reports ++ [e] })

def consume (kind : Token.Kind) (cause : ParseError.Cause) (c : Cursor) :
    Option (Except ParseError Token × Cursor) := do
  if ← c.check kind then
    let (token, c) ← c.advance
    return (.ok token, c)
  else return c.fail (.atToken (← c.peek) cause)

/-! ## Terms -/

/-- Takes identifiers as long as there are any, the last one first. -/
def params : Nat → List String → Cursor → Option (List String × Cursor)
  | 0, _, _ => none
  | fuel + 1, names, c => do
    if ← c.check .ident then
      let (token, c) ← c.advance
      params fuel (token.lexeme :: names) c
    else return (names, c)

/-- Enters the scope of parameters given last first. -/
def enter (names : List String) (c : Cursor) : Cursor :=
  { c with
    scopes := Scopes.enter c.nextId names.reverse c.scopes
    nextId := c.nextId + names.length }

/-- Leaves the scope of the parameters when their body has been read or has failed. -/
def leave (names : List String) : Except ParseError Term × Cursor → Except ParseError Term × Cursor
  | (.error e, c) => (.error e, { c with scopes := c.scopes.abandon names })
  | (.ok body, c) =>
    let (t, scopes) := c.scopes.leave names body
    (.ok t, { c with scopes := scopes })

/-- Takes the parenthesis behind a term, if that has been read. -/
def close : Except ParseError Term × Cursor → Option (Except ParseError Term × Cursor)
  | (.error e, c) => some (.error e, c)
  | (.ok t, c) => do
    match ← c.consume .rparen .noClosing with
    | (.error e, c) => return (.error e, c)
    | (.ok _, c) => return (.ok t, c)

def startsAtom (c : Cursor) : Option Bool := do
  if ← c.check .lparen then return true
  else if ← c.check .ident then return true
  else c.check .lambda

mutual

def term : Nat → Cursor → Option (Except ParseError Term × Cursor)
  | 0, _ => none
  | fuel + 1, c => do
    let (isLambda, c) ← c.take .lambda
    if isLambda then abstraction fuel c else application fuel c

/-- What is behind the `λ`. -/
def abstraction : Nat → Cursor → Option (Except ParseError Term × Cursor)
  | 0, _ => none
  | fuel + 1, c => do
    match ← c.consume .ident .noParameter with
    | (.error e, c) => return (.error e, c)
    | (.ok first, c) =>
      let (names, c) ← c.params fuel [first.lexeme]
      match ← c.consume .dot .noDot with
      | (.error e, c) => return (.error e, c)
      | (.ok _, c) =>
        return leave names (← term fuel (c.enter names))

def application : Nat → Cursor → Option (Except ParseError Term × Cursor)
  | 0, _ => none
  | fuel + 1, c => do
    match ← atom fuel c with
    | (.error e, c) => return (.error e, c)
    | (.ok t, c) => spine fuel t c

/-- The atoms behind the application `t`. -/
def spine : Nat → Term → Cursor → Option (Except ParseError Term × Cursor)
  | 0, _, _ => none
  | fuel + 1, t, c => do
    if ← c.startsAtom then
      match ← atom fuel c with
      | (.error e, c) => return (.error e, c)
      | (.ok right, c) => spine fuel (.app t right) c
    else return (.ok t, c)

def atom : Nat → Cursor → Option (Except ParseError Term × Cursor)
  | 0, _ => none
  | fuel + 1, c => do
    let (isGroup, c) ← c.take .lparen
    if isGroup then close (← term fuel c)
    else
      let (isName, c) ← c.take .ident
      if isName then
        let name := (← c.previous).lexeme
        return (.ok (.var name (c.scopes.get name) false), c)
      else
        let (isLambda, c) ← c.take .lambda
        if isLambda then abstraction fuel c
        else return c.fail (.atToken (← c.peek) .noExpression)

end

/-! ## Statements -/

def endLine {α : Type} (form : Form) (value : α) (c : Cursor) :
    Option (Except ParseError α × Cursor) := do
  match ← c.consume .newline (.noNewline form) with
  | (.error e, c) => return (.error e, c)
  | (.ok _, c) => return (.ok value, c)

def termLine (fuel : Nat) (form : Form) (c : Cursor) :
    Option (Except ParseError Term × Cursor) := do
  match ← c.term fuel with
  | (.error e, c) => return (.error e, c)
  | (.ok t, c) => c.endLine form t

/-- A name and `=` have been seen. -/
def binding (fuel : Nat) (c : Cursor) : Option (Except ParseError Statement × Cursor) := do
  let (name, c) ← c.advance
  let (_, c) ← c.advance
  match ← c.termLine fuel .binding with
  | (.error e, c) => return (.error e, c)
  | (.ok t, c) => return (.ok (.binding name.lexeme t), c)

def termStatement (fuel : Nat) (c : Cursor) : Option (Except ParseError Statement × Cursor) := do
  match ← c.termLine fuel .term with
  | (.error e, c) => return (.error e, c)
  | (.ok t, c) =>
    if t.isNonTerminating then return c.fail .nonTerminating else return (.ok (.term t), c)

def startsBinding (c : Cursor) : Option Bool := do
  if ← c.check .ident then c.checkNext .equals else return false

def statement (fuel : Nat) (c : Cursor) : Option (Except ParseError Statement × Cursor) := do
  let c := { c with scopes := .empty }
  if ← c.startsBinding then c.binding fuel
  else
    let (isEnv, c) ← c.take .env
    if isEnv then c.endLine .env (.command (.env ""))
    else
      let (isHelp, c) ← c.take .help
      if isHelp then c.endLine .help (.command (.help ""))
      else
        let (isUnbind, c) ← c.take .unbind
        if isUnbind then
          match ← c.consume .ident .noUnbindName with
          | (.error e, c) => return (.error e, c)
          | (.ok name, c) => c.endLine .unbind (.command (.unbind name.lexeme))
        else c.termStatement fuel

/-! ## Calls -/

def skipNewlines : Nat → Cursor → Option Cursor
  | 0, _ => none
  | fuel + 1, c => do
    let (taken, c) ← c.take .newline
    if taken then skipNewlines fuel c else return c

/-- Goes behind the next newline. -/
def synchronize : Nat → Cursor → Option Cursor
  | 0, _ => none
  | fuel + 1, c => do
    if ← c.atEnd then return c
    else
      let (token, c) ← c.advance
      if token.kind = .newline then return c else synchronize fuel c

def done (fuel : Nat) (c : Cursor) : Option (Bool × Cursor) := do
  let c ← c.skipNewlines fuel
  return (← c.atEnd, c)

/-- Behind a term that stands alone there are newlines, at least one, and nothing else. -/
def endTerm (fuel : Nat) (t : Term) (c : Cursor) : Option (Except ParseError Term × Cursor) := do
  if ← c.check .newline then
    let (atLast, c) ← c.done fuel
    if atLast then
      if t.isNonTerminating then return c.fail .nonTerminating else return (.ok t, c)
    else
      let token ← c.peek
      return c.fail (.atToken token (.unexpected token.text))
  else
    let token ← c.peek
    return c.fail (.atToken token (.unexpected token.text))

def parseTerm (fuel : Nat) (c : Cursor) : Option (Except ParseError Term × Cursor) := do
  let (atLast, c) ← c.done fuel
  if atLast then return c.fail (.atToken (← c.peek) .noExpression)
  else
    match ← c.term fuel with
    | (.error e, c) => return (.error e, c)
    | (.ok t, c) => c.endTerm fuel t

def next (fuel : Nat) (c : Cursor) :
    Option (Except ParseError (Option Statement) × Cursor) := do
  let (atLast, c) ← c.done fuel
  if atLast then return (.ok none, c)
  else
    match ← c.statement fuel with
    | (.error e, c) => return (.error e, ← c.synchronize fuel)
    | (.ok st, c) => return (.ok (some st), c)

/-- What the calls of `next` up to the end have given, and how many there were. -/
structure Tally where
  statements : List Statement
  errors : List ParseError
  calls : Nat
deriving DecidableEq

def Tally.add (tally : Tally) : Except ParseError (Option Statement) → Tally
  | .error e => { tally with errors := e :: tally.errors, calls := tally.calls + 1 }
  | .ok none => { tally with calls := tally.calls + 1 }
  | .ok (some st) => { tally with statements := st :: tally.statements, calls := tally.calls + 1 }

def all : Nat → Cursor → Option (Tally × Cursor)
  | 0, _ => none
  | fuel + 1, c => do
    let (atLast, c) ← c.done fuel
    if atLast then return (⟨[], [], 0⟩, c)
    else
      let (found, c) ← c.next fuel
      let (tally, c) ← all fuel c
      return (tally.add found, c)

inductive Call where
  | term | next | all | done
deriving DecidableEq

inductive Answer where
  | term (result : Except ParseError Term)
  | next (result : Except ParseError (Option Statement))
  | all (tally : Tally)
  | done (atLast : Bool)

def call (fuel : Nat) (c : Cursor) : Call → Option (Answer × Cursor)
  | .term => (c.parseTerm fuel).map fun found => (.term found.1, found.2)
  | .next => (c.next fuel).map fun found => (.next found.1, found.2)
  | .all => (c.all fuel).map fun found => (.all found.1, found.2)
  | .done => (c.done fuel).map fun found => (.done found.1, found.2)

def calls (fuel : Nat) : List Call → Cursor → Option (List Answer × Cursor)
  | [], c => some ([], c)
  | one :: more, c => do
    let (answer, c) ← c.call fuel one
    let (answers, c) ← calls fuel more c
    return (answer :: answers, c)

end Cursor

end UntypedLambda
