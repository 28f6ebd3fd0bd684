import UntypedLambda.Log
import UntypedLambda.Parser
import UntypedLambda.Session.Equivalences
import UntypedLambda.Session.Options
import UntypedLambda.Session.Prelude
import UntypedLambda.Term.Fingerprint

/-! # Sessions

A session holds definitions and evaluates terms against them: a text is read, the names in it
are expanded, and the term is reduced.  Everything that happens is recorded in the log. -/
set_option autoImplicit false

namespace UntypedLambda

/-- The version of the evaluator and its prelude. -/
def release : String := "1.2.0"

structure Session where
  options : Options
  log : Log
  nextId : Int
  bindings : Std.TreeMap String Term
  equivalences : Equivalences
  stats : Stats

namespace Session

/-! ## Definitions -/

def lookup (s : Session) (name : String) : Option Term := s.bindings[name]?

/-- The names that are bound, in order. -/
def names (s : Session) : List String := s.bindings.keys

/-- The normal form of a term under the present definitions, or the term itself if there is
none within the bounds.  Nothing is recorded or counted. -/
def normalForm (s : Session) (t : Term) : Term :=
  match (Expansion.run s.lookup Bound.default t).result with
  | .error _ => t
  | .ok expanded =>
    match (Reduction.run { bound := s.options.bound } {} expanded).result with
    | .error _ => t
    | .ok reduced => reduced

/-- Enters a bound name into the equivalence table. -/
def classify (s : Session) (name : String) (t : Term) : Session :=
  { s with
    equivalences := s.equivalences.insert name (s.normalForm t).structureFingerprint }

def bind (s : Session) (name : String) (t : Term) : Session :=
  let s :=
    { s with
      bindings := s.bindings.insert name t
      equivalences :=
        if s.bindings.contains name then s.equivalences.erase name else s.equivalences }
  s.classify name t

def unbind (s : Session) (name : String) : Session :=
  { s with bindings := s.bindings.erase name, equivalences := s.equivalences.erase name }

/-- The bound names whose normal form shares the structure fingerprint of `t`. -/
def equivalents (s : Session) (t : Term) : List String :=
  s.equivalences.names t.structureFingerprint

/-! ## Reading -/

def reportAll (s : Session) (errors : List LexError) : Session :=
  { s with log := errors.foldl (fun log e => log.reportError (.lex e)) s.log }

/-- Reads a text that is a single term.  Characters that start no token are recorded and
skipped. -/
def read (s : Session) (source : String) : Except ParseError Term × Session :=
  let scan := Token.scan source
  let s := s.reportAll scan.errors
  let (result, parser) := (Parser.mk scan.tokens s.nextId).parseTerm
  let s := { s with nextId := parser.nextId }
  match result with
  | .ok t => (.ok t, s)
  | .error e => (.error e, { s with log := s.log.reportError (.parse e) })

/-! ## The start -/

/-- Reads one item of the prelude. -/
def load (s : Session) (item : Prelude.Item) : Session :=
  match s.read item.source with
  | (.error _, s) => s
  | (.ok t, s) =>
    { s with bindings := item.names.foldl (fun b name => b.insert name t) s.bindings }

/-- A session with the prelude.  The equivalence table is filled when all is bound, since
definitions refer to one another. -/
def new (options : Options) : Session :=
  let s : Session :=
    { options := options
      log := (Log.new options.verbosity).setCapacity options.traceCapacity
      nextId := 1
      bindings := ∅
      equivalences := .empty
      stats := {} }
  let s := Prelude.items.foldl load s
  let s := (Prelude.items.flatMap (·.names)).foldl
    (fun s name => s.classify name (s.bindings.getD name .hole)) s
  { s with log := s.log.clear }

def setOptions (s : Session) (options : Options) : Session :=
  { s with
    options := options
    log := (s.log.setVerbosity options.verbosity).setCapacity options.traceCapacity }

/-! ## Evaluation -/

def countError (s : Session) : Session :=
  { s with stats := { s.stats with errors := s.stats.errors + 1 } }

/-- Records an error that ends an evaluation. -/
def fail (s : Session) (e : Error) : Error × Session :=
  let s := { s.countError with log := s.log.reportError e }
  match e.cause with
  | .depth _ => (e, s)
  | _ => (.during "evaluate" e, s)

/-- The last step of an evaluation: records a result and the names it is equivalent to. -/
def conclude (s : Session) (t : Term) : Session :=
  let log := s.log.add .result t.text
  let equal := s.equivalents t
  if s.options.showEquivalent && !equal.isEmpty then
    { s with log := log.addEquivalence equal log.lastId }
  else { s with log := log }

/-- Reduces a term in which all names have been expanded. -/
def reduce (s : Session) (t : Term) : Except Error Term × Session :=
  let run := Reduction.run s.options.reduction {} t
  let s :=
    { s with
      log := s.log.addReduction run
      stats := s.stats.addReduction run.counters }
  match run.toExcept with
  | .ok t => (.ok t, s.conclude t)
  | .error e =>
    let (e, s) := s.fail e
    (.error e, s)

/-- The outcome of evaluating a term that has been read. -/
structure Evaluation where
  result : Except Error Term
  /-- The term given, after the names in it were expanded in place. -/
  expanded : Term
  session : Session

/-- Evaluates a term that has been read. -/
def evaluateTerm (s : Session) (t : Term) : Evaluation :=
  let run := Expansion.run s.lookup s.options.bound t
  let stats :=
    { s.stats with
      evaluations := s.stats.evaluations + 1
      deltas := s.stats.deltas + run.unfoldings.length }
  let s := { s with stats := stats, log := (s.log.add .parsed t.text).addExpansion run }
  let (result, s) : Except Error Term × Session :=
    match run.toExcept with
    | .ok u => s.reduce u
    | .error e =>
      let (e, s) := s.fail e
      (.error e, s)
  ⟨result, run.inPlace t, s⟩

/-- Evaluates a text that is a single term, with a log of its own. -/
def evaluate (s : Session) (input : String) : Except Error Term × Session :=
  let echo := String.ofList (input.toList.reverse.dropWhile (· == '\n')).reverse
  let s := { s with log := (s.log.clear.setSource input).add .input echo }
  match s.read input with
  | (.error e, s) => (.error (.parse e), s.countError)
  | (.ok t, s) =>
    let done := s.evaluateTerm t
    (done.result, done.session)

/-- Binds a name to the term in a text. -/
def define (s : Session) (name source : String) : Except Error Unit × Session :=
  let s := { s with log := s.log.setSource source }
  match s.read source with
  | (.error e, s) => (.error (.during ("define " ++ name) (.parse e)), s)
  | (.ok t, s) => (.ok (), s.bind name t)

/-! ## Commands -/

/-- Names that share a value fingerprint, in order, with the term of the first of them. -/
structure Aliases where
  names : List String
  term : Term

/-- The bound names by value fingerprint, groups in the order of their first names. -/
def aliases (s : Session) : List Aliases :=
  let entries := s.bindings.toList.map fun b => (b.1, b.2, b.2.valueFingerprint)
  ((entries.map (·.2.2)).eraseDups).filterMap fun h =>
    match entries.filter (·.2.2 == h) with
    | [] => none
    | first :: rest => some ⟨(first :: rest).map (·.1), first.2.1⟩

def Aliases.line (a : Aliases) : String :=
  ", ".intercalate a.names ++ ":\t" ++ a.term.text ++ "\n"

def environment (s : Session) : String :=
  "Current bindings:\n" ++ String.join (s.aliases.map Aliases.line)

def helpText : String :=
  "Available commands:\n"
    ++ "env               - Show current environment\n"
    ++ "unbind <name>     - Remove binding\n"
    ++ "help              - Show this help\n"
    ++ "\n"
    ++ "Statements:\n"
    ++ "name = term       - Bind a name to a term\n"
    ++ "term              - Reduce a term to normal form\n"
    ++ "\n"
    ++ "Examples:\n"
    ++ "\\x. x             - Identity function\n"
    ++ "(\\x. x) y         - Application\n"
    ++ "\\t. \\f. t         - Church true\n"
    ++ "\\t. \\f. f         - Church false\n"
    ++ "plus two three    - Church arithmetic\n"
    ++ "\n"
    ++ "Built-in terms:\n"
    ++ "true, false, and, or, not, if\n"
    ++ "pair/cons, first/car, second/cdr, nil/empty, null/isempty\n"
    ++ "tree, datum, left, right\n"
    ++ "zero .. five, incr, plus, times, iszero"

/-- Carries out a command and gives its answer. -/
def command (s : Session) (c : Command) : String × Session :=
  match c with
  | .env _ => (s.environment, s)
  | .help _ => (helpText, s)
  | .unbind name =>
    if name = "" then ("Missing argument for unbind", s)
    else if s.bindings.contains name then ("Unbound '" ++ name ++ "'", s.unbind name)
    else ("'" ++ name ++ "' was not bound", s)
  | .unknown _ => ("Unknown command", s)

/-! ## Statements -/

inductive Answer where
  | value (t : Term)
  | output (text : String)
  | failure (e : Error)
deriving DecidableEq, Repr, Inhabited

/-- The answer to a statement, and the statement with the names in its term expanded.  There
is no statement where reading failed. -/
structure Reply where
  statement : Option Statement
  answer : Answer
deriving DecidableEq, Repr, Inhabited

/-- Records an output and makes it the reply. -/
def say (s : Session) (st : Statement) (out : String) : Reply × Session :=
  (⟨some st, .output out⟩, { s with log := s.log.add .normal out })

def execStatement (s : Session) (st : Statement) : Reply × Session :=
  match st with
  | .term t =>
    let done := s.evaluateTerm t
    let answer : Answer :=
      match done.result with
      | .ok u => .value u
      | .error e => .failure e
    (⟨some (.term done.expanded), answer⟩, done.session)
  | .binding name t => (s.bind name t).say st (name ++ " = " ++ t.text)
  | .command c =>
    let (out, s) := s.command c
    s.say st out

/-- The reply to what the parser has found next. -/
def execNext (s : Session) (found : Except ParseError (Option Statement)) :
    Option Reply × Session :=
  match found with
  | .error e =>
    let s := { s.countError with log := s.log.reportError (.parse e) }
    (some ⟨none, .failure (.parse e)⟩, s)
  | .ok none => (none, s)
  | .ok (some st) =>
    let (reply, s) := s.execStatement st
    (some reply, s)

/-- Executes the statements that the parser has before it. -/
def execAll (s : Session) (p : Parser) : List Reply × Session :=
  if atLast : p.done then ([], { s with nextId := p.nextId })
  else
    have progress : p.next.2.tokens.length < p.tokens.length :=
      p.length_next_lt (by simpa using atLast)
    let (reply, s) := s.execNext p.next.1
    let (replies, s) := execAll s p.next.2
    (reply.toList ++ replies, s)
termination_by p.tokens.length

/-- Executes every statement in a text, with a log of its own.  A statement that cannot be
read fails alone. -/
def exec (s : Session) (source : String) : List Reply × Session :=
  let scan := Token.scan source
  let s := { s with log := s.log.clear.setSource source }.reportAll scan.errors
  s.execAll ⟨scan.tokens, s.nextId⟩

end Session

end UntypedLambda
