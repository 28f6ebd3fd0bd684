import UntypedLambda.Term

/-! # Statements

One line of input is a term to reduce, a definition, or a command. -/
set_option autoImplicit false

namespace UntypedLambda

inductive Command where
  | unknown (argument : String)
  | env (argument : String)
  | unbind (argument : String)
  | help (argument : String)
deriving DecidableEq, Repr, Inhabited

namespace Command

def name : Command → String
  | unknown _ => "none"
  | env _ => "env"
  | unbind _ => "unbind"
  | help _ => "help"

/-- Only `unbind` makes use of its argument. -/
def argument : Command → String
  | unknown a => a
  | env a => a
  | unbind a => a
  | help a => a

def ofCode (code : Int) (argument : String) : Command :=
  if code = 1 then env argument
  else if code = 2 then unbind argument
  else if code = 3 then help argument
  else unknown argument

end Command

inductive Statement where
  | term (t : Term)
  | binding (name : String) (t : Term)
  | command (c : Command)
deriving DecidableEq, Repr, Inhabited

/-- The statement with other numbers. -/
def Statement.renumber (σ : Int → Int) : Statement → Statement
  | .term t => .term (t.renumber σ)
  | .binding name t => .binding name (t.renumber σ)
  | .command c => .command c

end UntypedLambda
