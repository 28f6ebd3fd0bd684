import UntypedLambda.Parser.Reading
import UntypedLambda.Statement
import UntypedLambda.Token.Scan

/-! # The parser

A parser holds the tokens not yet taken and the number that the next abstraction gets.  The
number is an integer without bounds and only ever grows, also when reading fails, so numbers stay
unique over a parser's life.  A session numbers from one on and has a parser of this kind; the
parser that starts at any number, and whose numbers have 64 bits, is in `Parser/Word`.
Main statement: `length_next_lt`, each call of `next` before the end takes at least one token. -/
set_option autoImplicit false

namespace UntypedLambda

structure Parser where
  tokens : List Token
  nextId : Int
deriving DecidableEq, Repr, Inhabited

namespace Parser

/-- Numbers start at `startId`, but never below one. -/
def new (startId : Int) : Parser := ⟨[], max startId 1⟩

def load (p : Parser) (tokens : List Token) : Parser := { p with tokens := tokens }

/-! ## Looking at tokens -/

def skipNewlines (tokens : List Token) : List Token := tokens.dropWhile (·.kind == .newline)

def peek (tokens : List Token) : Token := tokens.headD .missing

def atEnd (tokens : List Token) : Bool := (peek tokens).kind == .eof

/-- Behind the next newline, or at the end if there is none. -/
def synchronize : List Token → List Token
  | [] => []
  | token :: rest =>
    if token.kind = .eof then token :: rest
    else if token.kind = .newline then rest
    else synchronize rest

def skipped (p : Parser) : Parser := { p with tokens := skipNewlines p.tokens }

/-- Only newlines are left. -/
def done (p : Parser) : Bool := atEnd p.skipped.tokens

/-! ## One term -/

/-- Reads one term that stands alone, with newlines around it and at least one behind it. -/
def parseTerm (p : Parser) : Except ParseError Term × Parser :=
  let tokens := skipNewlines p.tokens
  if atEnd tokens then
    (.error (.atToken (peek tokens) .noExpression), { p with tokens := tokens })
  else
    let read := (Reading.start p.nextId).run tokens
    match read.result with
    | .error e => (.error e, ⟨read.rest, read.nextId⟩)
    | .ok t =>
      let next := peek read.rest
      if next.kind ≠ .newline then
        (.error (.atToken next (.unexpected next.text)), ⟨read.rest, read.nextId⟩)
      else
        let rest := skipNewlines read.rest
        let next := peek rest
        if !atEnd rest then
          (.error (.atToken next (.unexpected next.text)), ⟨rest, read.nextId⟩)
        else if t.isNonTerminating then (.error .nonTerminating, ⟨rest, read.nextId⟩)
        else (.ok t, ⟨rest, read.nextId⟩)

/-! ## Statements -/

/-- Requires a newline, takes it, and yields `value`. -/
def endLine {α : Type} (form : Form) (value : α) (p : Parser) : Except ParseError α × Parser :=
  if (peek p.tokens).kind = .newline then (.ok value, { p with tokens := p.tokens.tail })
  else (.error (.atToken (peek p.tokens) (.noNewline form)), p)

/-- Reads a term and the newline that ends its statement. -/
def termLine (form : Form) (p : Parser) : Except ParseError Term × Parser :=
  let read := (Reading.start p.nextId).run p.tokens
  match read.result with
  | .error e => (.error e, ⟨read.rest, read.nextId⟩)
  | .ok t => endLine form t ⟨read.rest, read.nextId⟩

/-- A term as a statement.  The guard against a literal loop is raised when the newline has
been taken. -/
def termStatement (p : Parser) : Except ParseError Statement × Parser :=
  match termLine .term p with
  | (.error e, p) => (.error e, p)
  | (.ok t, p) => if t.isNonTerminating then (.error .nonTerminating, p) else (.ok (.term t), p)

/-- Reads a statement that starts at the first token. -/
def statement (p : Parser) : Except ParseError Statement × Parser :=
  let after := p.tokens.tail
  match (peek p.tokens).kind, (peek after).kind with
  | .ident, .equals =>
    let (result, q) := termLine .binding { p with tokens := after.tail }
    (result.map (Statement.binding (peek p.tokens).lexeme), q)
  | .env, _ => endLine .env (.command (.env "")) { p with tokens := after }
  | .help, _ => endLine .help (.command (.help "")) { p with tokens := after }
  | .unbind, .ident =>
    endLine .unbind (.command (.unbind (peek after).lexeme)) { p with tokens := after.tail }
  | .unbind, _ => (.error (.atToken (peek after) .noUnbindName), { p with tokens := after })
  | _, _ => termStatement p

/-- The next statement, or none at the end.  After an error the rest of the line is skipped,
so that the statement behind it can still be read. -/
def next (p : Parser) : Except ParseError (Option Statement) × Parser :=
  let tokens := skipNewlines p.tokens
  if atEnd tokens then (.ok none, { p with tokens := tokens })
  else
    match statement { p with tokens := tokens } with
    | (.error e, p) => (.error e, { p with tokens := synchronize p.tokens })
    | (.ok s, p) => (.ok (some s), p)

/-! ## Progress -/

theorem skipNewlines_suffix (tokens : List Token) : skipNewlines tokens <:+ tokens :=
  List.dropWhile_suffix _

theorem synchronize_suffix (tokens : List Token) : synchronize tokens <:+ tokens := by
  induction tokens with
  | nil => exact List.suffix_rfl
  | cons token rest ih =>
    unfold synchronize
    split
    · exact List.suffix_rfl
    · split
      · exact List.suffix_cons _ _
      · exact ih.trans (List.suffix_cons _ _)

theorem length_synchronize_lt {tokens : List Token} (more : atEnd tokens = false) :
    (synchronize tokens).length < tokens.length := by
  cases tokens with
  | nil => simp [atEnd, peek, Token.missing] at more
  | cons token rest =>
    have kind : token.kind ≠ .eof := by simpa [atEnd, peek] using more
    unfold synchronize
    rw [if_neg kind]
    split
    · exact Nat.lt_succ_self _
    · exact Nat.lt_succ_of_le (synchronize_suffix rest).length_le

theorem endLine_suffix {α : Type} (form : Form) (value : α) (p : Parser) :
    (endLine form value p).2.tokens <:+ p.tokens := by
  unfold endLine
  split
  · exact List.tail_suffix _
  · exact List.suffix_rfl

theorem length_endLine_lt {α : Type} (form : Form) (value v : α) (p : Parser)
    (success : (endLine form value p).1 = .ok v) :
    (endLine form value p).2.tokens.length < p.tokens.length := by
  unfold endLine at success ⊢
  split at success
  · rename_i newline
    rw [if_pos newline]
    cases tokens : p.tokens with
    | nil => simp [peek, Token.missing, tokens] at newline
    | cons token rest => simp
  · cases success

theorem termLine_suffix (form : Form) (p : Parser) :
    (termLine form p).2.tokens <:+ p.tokens := by
  have read := Reading.rest_run_suffix (Reading.start p.nextId) p.tokens
  unfold termLine
  dsimp only
  split
  · exact read
  · exact (endLine_suffix _ _ _).trans read

theorem length_termLine_lt (form : Form) (p : Parser) (t : Term)
    (success : (termLine form p).1 = .ok t) :
    (termLine form p).2.tokens.length < p.tokens.length := by
  have read := Reading.rest_run_suffix (Reading.start p.nextId) p.tokens
  unfold termLine at success ⊢
  dsimp only at success ⊢
  split at success
  · cases success
  · exact Nat.lt_of_lt_of_le (length_endLine_lt _ _ _ _ success) read.length_le

theorem termStatement_suffix (p : Parser) : (termStatement p).2.tokens <:+ p.tokens := by
  have line := termLine_suffix .term p
  unfold termStatement
  split
  · rename_i read
    simpa [read] using line
  · rename_i read
    split <;> simpa [read] using line

theorem length_termStatement_lt (p : Parser) (s : Statement)
    (success : (termStatement p).1 = .ok s) :
    (termStatement p).2.tokens.length < p.tokens.length := by
  unfold termStatement at success ⊢
  split at success
  · cases success
  · rename_i t q read
    have line := length_termLine_lt .term p t (by rw [read])
    rw [read] at line
    split at success
    · cases success
    · rename_i terminating
      rw [if_neg terminating]
      exact line

theorem statement_suffix (p : Parser) : (statement p).2.tokens <:+ p.tokens := by
  have one : p.tokens.tail <:+ p.tokens := List.tail_suffix _
  have two : p.tokens.tail.tail <:+ p.tokens := (List.tail_suffix _).trans one
  unfold statement
  dsimp only
  split
  · exact (termLine_suffix _ _).trans two
  · exact (endLine_suffix _ _ _).trans one
  · exact (endLine_suffix _ _ _).trans one
  · exact (endLine_suffix _ _ _).trans two
  · exact one
  · exact termStatement_suffix p

theorem length_statement_lt (p : Parser) (s : Statement) (success : (statement p).1 = .ok s) :
    (statement p).2.tokens.length < p.tokens.length := by
  have one : p.tokens.tail.length ≤ p.tokens.length := (List.tail_suffix _).length_le
  have two : p.tokens.tail.tail.length ≤ p.tokens.length :=
    ((List.tail_suffix _).trans (List.tail_suffix _)).length_le
  unfold statement at success ⊢
  dsimp only at success ⊢
  split at success
  · dsimp only at success ⊢
    cases read : (termLine .binding { p with tokens := p.tokens.tail.tail }).1 with
    | error e => rw [read] at success; cases success
    | ok t => exact Nat.lt_of_lt_of_le (length_termLine_lt _ _ t read) two
  · exact Nat.lt_of_lt_of_le (length_endLine_lt _ _ _ _ success) one
  · exact Nat.lt_of_lt_of_le (length_endLine_lt _ _ _ _ success) one
  · exact Nat.lt_of_lt_of_le (length_endLine_lt _ _ _ _ success) two
  · cases success
  · exact length_termStatement_lt p s success

/-- Each call before the end takes at least one token, also when it fails. -/
theorem length_next_lt (p : Parser) (more : p.done = false) :
    p.next.2.tokens.length < p.tokens.length := by
  have front := (skipNewlines_suffix p.tokens).length_le
  unfold next
  dsimp only
  unfold done skipped at more
  rw [more]
  simp only [Bool.false_eq_true, if_false]
  have suffix := statement_suffix { p with tokens := skipNewlines p.tokens }
  split
  · rename_i e q read
    rw [read] at suffix
    dsimp only at suffix ⊢
    have skipped := (synchronize_suffix q.tokens).length_le
    rcases Nat.lt_or_eq_of_le suffix.length_le with shorter | same
    · omega
    · have all := suffix.eq_of_length same
      rw [all]
      exact Nat.lt_of_lt_of_le (length_synchronize_lt more) front
  · rename_i s q read
    have shorter := length_statement_lt { p with tokens := skipNewlines p.tokens } s (by rw [read])
    rw [read] at shorter
    dsimp only at shorter ⊢
    omega

/-! ## All statements -/

/-- Everything up to the end: the statements, and the errors of the lines between them. -/
structure Listing where
  statements : List Statement
  errors : List ParseError
  parser : Parser

def all (p : Parser) : Listing :=
  if atLast : p.done then ⟨[], [], p.skipped⟩
  else
    have progress : p.next.2.tokens.length < p.tokens.length :=
      length_next_lt p (by simpa using atLast)
    let listing := p.next.2.all
    match p.next.1 with
    | .error e => { listing with errors := e :: listing.errors }
    | .ok none => listing
    | .ok (some s) => { listing with statements := s :: listing.statements }
termination_by p.tokens.length

end Parser

/-! ## Source text -/

/-- Reads a text that is a single term.  A character that starts no token is an error. -/
def Term.ofSource (source : String) : Except Error Term :=
  let scan := Token.scan source
  match scan.errors with
  | e :: _ => .error (.lex e)
  | [] => ((Parser.new 1).load scan.tokens).parseTerm.1.mapError .parse

end UntypedLambda
