/-! # Tokens

The units that source text is made of, each with the place where it stands.  Lines and
columns count from one, in code points. -/
set_option autoImplicit false

namespace UntypedLambda

/-- A place in the source: `length` code points from column `col` of line `line`.
Line zero means that the place is not known. -/
structure Location where
  line : Int
  col : Int
  length : Int
  atEnd : Bool
deriving DecidableEq, Repr, Inhabited

inductive Token.Kind where
  | eof | lparen | rparen | lambda | dot | equals | ident | newline | env | unbind | help
  | error | unknown
deriving DecidableEq, Repr, Inhabited

structure Token where
  kind : Token.Kind
  lexeme : String
  line : Int
  start : Int
  length : Int
deriving DecidableEq, Repr, Inhabited

namespace Token.Kind

def name : Kind → String
  | eof => "EOF"
  | lparen => "'('"
  | rparen => "')'"
  | lambda => "lambda"
  | dot => "'.'"
  | equals => "'='"
  | ident => "identifier"
  | newline => "newline"
  | env => "env"
  | unbind => "unbind"
  | help => "help"
  | error => "error"
  | unknown => "unknown"

/-- The kinds in the order of their numeric codes. -/
def all : List Kind :=
  [eof, lparen, rparen, lambda, dot, equals, ident, newline, env, unbind, help, error]

def ofCode (code : Int) : Kind :=
  if code < 0 then unknown else all.getD code.toNat unknown

/-- The kind of a word: the four keywords apart, an identifier. -/
def ofWord (word : String) : Kind :=
  if word = "lambda" then lambda
  else if word = "env" then env
  else if word = "unbind" then unbind
  else if word = "help" then help
  else ident

end Token.Kind

namespace Token

/-- The token as an error message quotes it: the lexeme of a newline is not shown raw. -/
def text (token : Token) : String :=
  if token.kind = .newline then "<newline>" else token.lexeme

def location (token : Token) : Location :=
  ⟨token.line, token.start, token.length, decide (token.kind = .eof)⟩

/-- What a reader sees where there is no token at all. -/
def missing : Token := ⟨.eof, "", 0, 0, 0⟩

end Token

end UntypedLambda
