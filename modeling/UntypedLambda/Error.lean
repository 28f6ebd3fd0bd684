import UntypedLambda.Term
import UntypedLambda.Token

/-! # What can go wrong

Errors are causes; their wording is in the `message` functions. -/
set_option autoImplicit false

namespace UntypedLambda

/-- `line L [C, D]: ` in front of a message about the columns from `C` up to `D`. -/
def Location.label (loc : Location) : String :=
  "line " ++ toString loc.line ++ " [" ++ toString loc.col ++ ", "
    ++ toString (loc.col + loc.length) ++ "]: "

/-! ## Characters that start no token -/

structure LexError where
  line : Int
  col : Int
  char : Char
deriving DecidableEq, Repr, Inhabited

namespace LexError

def location (e : LexError) : Location := ⟨e.line, e.col, 1, false⟩

def text (e : LexError) : String := "Unexpected character: '" ++ String.singleton e.char ++ "'"

def message (e : LexError) : String := e.location.label ++ e.text

end LexError

/-! ## Tokens that do not fit -/

/-- The forms of statement that a newline has to end. -/
inductive Form where
  | env | help | unbind | term | binding
deriving DecidableEq, Repr, Inhabited

def Form.name : Form → String
  | .env => "env command"
  | .help => "help command"
  | .unbind => "unbind statement"
  | .term => "term"
  | .binding => "binding"

inductive ParseError.Cause where
  | noExpression
  | noParameter
  | noDot
  | noClosing
  | noUnbindName
  | noNewline (after : Form)
  | unexpected (token : String)
  | nonTerminating
deriving DecidableEq, Repr, Inhabited

def ParseError.Cause.text : ParseError.Cause → String
  | .noExpression => "Expected expression"
  | .noParameter => "Expected identifier after lambda"
  | .noDot => "Expected '.' after lambda parameters"
  | .noClosing => "Expected ')' after expression"
  | .noUnbindName => "Expected identifier after unbind"
  | .noNewline form => "Expected newline after " ++ form.name
  | .unexpected token => "Unexpected token '" ++ token ++ "'"
  | .nonTerminating =>
    "Non-terminating expression detected. This would lead to infinite reduction."

structure ParseError where
  cause : ParseError.Cause
  lexeme : String
  location : Location
deriving DecidableEq, Repr, Inhabited

namespace ParseError

def atToken (token : Token) (cause : Cause) : ParseError := ⟨cause, token.lexeme, token.location⟩

/-- The guard against a literal loop belongs to the whole term and has no place. -/
def nonTerminating : ParseError := ⟨.nonTerminating, "", ⟨0, 0, 0, false⟩⟩

def text (e : ParseError) : String := e.cause.text

def message (e : ParseError) : String :=
  if e.location.atEnd then "end of file: " ++ e.text
  else if e.location.line = 0 then e.text
  else e.location.label ++ e.text

end ParseError

/-! ## Work that cannot be finished -/

/-- Why a walk through a term stopped: it went below the depth allowed, or met a hole, while
reducing or folding or while expanding definitions. -/
inductive WalkError where
  | tooDeep
  | hole
  | holeExpanded
deriving DecidableEq, Repr, Inhabited

def WalkError.message : WalkError → String
  | .tooDeep => "transform error: maximum transform depth exceeded - possible infinite recursion"
  | .hole => "transform error: unknown term type <nil>"
  | .holeExpanded => "transform error: unknown term type"

/-- The depth bound was passed at the node `visited`; `reached` is the whole term as far as
the work had come. -/
structure DepthError where
  visited : Term
  depth : Nat
  reached : Term
deriving DecidableEq, Repr, Inhabited

def DepthError.message (e : DepthError) : String :=
  "Non-terminating reduction detected in expression: " ++ e.visited.text ++ "\n"
    ++ "This expression appears to reduce infinitely. Common examples of such terms include:\n"
    ++ "- (λx.x x x) (λx.x x x)  [The omega combinator]\n"
    ++ "- Terms with circular substitutions"

/-! ## All of them -/

inductive Error where
  | lex (e : LexError)
  | parse (e : ParseError)
  | depth (e : DepthError)
  | walk (e : WalkError)
  /-- The cause, under the name of what was being done. -/
  | during (task : String) (cause : Error)
deriving DecidableEq, Repr, Inhabited

namespace Error

def message : Error → String
  | lex e => e.message
  | parse e => e.message
  | depth e => e.message
  | walk e => e.message
  | during task cause => task ++ ": " ++ cause.message

/-- The error below all tasks. -/
def cause : Error → Error
  | during _ e => e.cause
  | e => e

def location? (e : Error) : Option Location :=
  match e.cause with
  | lex e => some e.location
  | parse e => some e.location
  | _ => none

/-- How far the work had come when the depth bound stopped it. -/
def reached? (e : Error) : Option Term :=
  match e.cause with
  | depth e => some e.reached
  | _ => none

end Error

end UntypedLambda
