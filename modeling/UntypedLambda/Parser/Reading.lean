import UntypedLambda.Error

/-! # Reading one term

    term ::= λ ident+ . term | atom+
    atom ::= ( term ) | ident | λ ident+ . term

The reader takes one token at a time.  What it has begun and not finished is a list of open
frames, so the binders in scope can be read off the frames and nothing else has to be kept
in step with them.  Application associates to the left, and the body of an abstraction
reaches as far to the right as it can. -/
set_option autoImplicit false

namespace UntypedLambda

/-- The application of what stands before an atom, if anything does, to that atom. -/
def Term.applied (head : Option Term) (atom : Term) : Term :=
  match head with
  | none => atom
  | some fn => .app fn atom

namespace Reading

/-- A binder in scope: its name and its number. -/
abbrev Binder := String × Int

/-- The abstractions over `body`, given innermost first. -/
def wrap (binders : List Binder) (body : Term) : Term :=
  binders.foldl (fun t b => .abs b.1 b.2 t) body

/-- Something begun: an opening parenthesis, or an abstraction whose body is being read, in
either case with the application that stands before it.  Binders are listed innermost first. -/
inductive Frame where
  | group (head : Option Term)
  | lambda (head : Option Term) (binders : List Binder)
deriving DecidableEq, Repr, Inhabited

def Frame.binders : Frame → List Binder
  | group _ => []
  | lambda _ binders => binders

/-- What the next token may be: an atom, or a parameter of the abstraction that has just
begun.  `names` are the parameters read, the last one first. -/
inductive Phase where
  | atom (head : Option Term)
  | params (head : Option Term) (names : List String)
deriving DecidableEq, Repr, Inhabited

/-- A binder's number is zero where the name is free. -/
def resolve (frames : List Frame) (name : String) : Int :=
  ((frames.flatMap Frame.binders).lookup name).getD 0

/-- Numbers the parameters upwards from `next`, in the order in which they were written.
Parameters are given last first, binders come out innermost first. -/
def number (next : Int) (names : List String) : List Binder :=
  (names.reverse.zipIdx.map fun p => (p.1, next + p.2)).reverse

/-- Ends the abstractions up to the nearest open parenthesis, and that parenthesis. -/
def close : List Frame → Term → Option (List Frame × Term)
  | [], _ => none
  | .group head :: frames, t => some (frames, Term.applied head t)
  | .lambda head binders :: frames, t => close frames (Term.applied head (wrap binders t))

/-- Ends everything, provided that no parenthesis is open. -/
def whole : List Frame → Term → Option Term
  | [], t => some t
  | .group _ :: _, _ => none
  | .lambda head binders :: frames, t => whole frames (Term.applied head (wrap binders t))

end Reading

structure Reading where
  frames : List Reading.Frame
  phase : Reading.Phase
  nextId : Int
deriving DecidableEq, Repr, Inhabited

namespace Reading

inductive Move where
  | shift (r : Reading)
  | accept (t : Term)
  | reject (cause : ParseError.Cause)
deriving DecidableEq, Repr, Inhabited

def start (nextId : Int) : Reading := ⟨[], .atom none, nextId⟩

/-- The move at a token that is no atom, after the application `t` has been read. -/
def finish (frames : List Frame) (t : Term) : Move :=
  match whole frames t with
  | some t => .accept t
  | none => .reject .noClosing

def step (r : Reading) (token : Token) : Move :=
  match r.phase, token.kind with
  | .atom head, .lparen => .shift { r with frames := .group head :: r.frames, phase := .atom none }
  | .atom head, .ident =>
    let v : Term := .var token.lexeme (resolve r.frames token.lexeme) false
    .shift { r with phase := .atom (some (Term.applied head v)) }
  | .atom head, .lambda => .shift { r with phase := .params head [] }
  | .atom none, _ => .reject .noExpression
  | .atom (some t), .rparen =>
    match close r.frames t with
    | some (frames, t) => .shift { r with frames := frames, phase := .atom (some t) }
    | none => finish r.frames t
  | .atom (some t), _ => finish r.frames t
  | .params head names, .ident => .shift { r with phase := .params head (token.lexeme :: names) }
  | .params _ [], _ => .reject .noParameter
  | .params head (name :: names), .dot =>
    .shift
      { frames := .lambda head (number r.nextId (name :: names)) :: r.frames
        phase := .atom none
        nextId := r.nextId + (name :: names).length }
  | .params _ (_ :: _), _ => .reject .noDot

/-- A term or the error that prevents it, the tokens that were not taken, and the number of
the next abstraction. -/
structure Outcome where
  result : Except ParseError Term
  rest : List Token
  nextId : Int

/-- Reads on until a token is refused or the term is complete; that token is not taken. -/
def run (r : Reading) : List Token → Outcome
  | [] =>
    match r.step .missing with
    | .shift r => ⟨.error (.atToken .missing .noExpression), [], r.nextId⟩
    | .accept t => ⟨.ok t, [], r.nextId⟩
    | .reject cause => ⟨.error (.atToken .missing cause), [], r.nextId⟩
  | token :: rest =>
    match r.step token with
    | .shift r => run r rest
    | .accept t => ⟨.ok t, token :: rest, r.nextId⟩
    | .reject cause => ⟨.error (.atToken token cause), token :: rest, r.nextId⟩

/-- Tokens are taken from the front only. -/
theorem rest_run_suffix (r : Reading) (tokens : List Token) :
    (r.run tokens).rest <:+ tokens := by
  induction tokens generalizing r with
  | nil => unfold run; split <;> exact List.suffix_rfl
  | cons token rest ih =>
    unfold run
    split
    · exact (ih _).trans (List.suffix_cons _ _)
    · exact List.suffix_rfl
    · exact List.suffix_rfl

end Reading

end UntypedLambda
