import UntypedLambda.Parser

/-! # Parsers whose numbers have 64 bits

After the last number of 64 bits the first one follows, which is negative.  A call counts on from
the next number without bounds, and what it has given out is cut to 64 bits when it returns.  It
takes a token for each number, so within a call different numbers stay different in 64 bits, and
reading goes the same way. -/
set_option autoImplicit false

namespace UntypedLambda

theorem Number.word_word (n : Int) : word (word n) = word n := Int.bmod_bmod

structure WordParser where
  parser : Parser
  fits : Number.word parser.nextId = parser.nextId

namespace WordParser

def ofParser (p : Parser) : WordParser :=
  ⟨{ p with nextId := Number.word p.nextId }, Number.word_word _⟩

/-- Numbers start at `startId`, but never below one. -/
def new (startId : Int) : WordParser := ofParser (Parser.new startId)

def nextId (p : WordParser) : Int := p.parser.nextId

def load (p : WordParser) (tokens : List Token) : WordParser := ⟨p.parser.load tokens, p.fits⟩

def skipped (p : WordParser) : WordParser := ⟨p.parser.skipped, p.fits⟩

def done (p : WordParser) : Bool := p.parser.done

def parseTerm (p : WordParser) : Except ParseError Term × WordParser :=
  (p.parser.parseTerm.1.map (Term.renumber Number.word), ofParser p.parser.parseTerm.2)

def next (p : WordParser) : Except ParseError (Option Statement) × WordParser :=
  (p.parser.next.1.map (Option.map (Statement.renumber Number.word)), ofParser p.parser.next.2)

/-- Everything up to the end: the statements, and the errors of the lines between them. -/
structure Listing where
  statements : List Statement
  errors : List ParseError
  parser : WordParser

def all (p : WordParser) : Listing :=
  ⟨p.parser.all.statements.map (Statement.renumber Number.word), p.parser.all.errors,
    ofParser p.parser.all.parser⟩

end WordParser

end UntypedLambda
