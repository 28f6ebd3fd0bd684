/-! # Places and problems in a YAML text -/
set_option autoImplicit false

namespace UntypedLambda.Yaml

/-- Line and column count from zero; `index` counts all characters before. -/
structure Mark where
  line : Nat := 0
  col : Nat := 0
  index : Nat := 0
deriving DecidableEq, Repr, Inhabited

/-- A character that ends a line, alone or as the first of two. -/
def isBreak (c : Char) : Bool :=
  c == '\n' || c == '\r' || c.toNat == 0x85 || c.toNat == 0x2028 || c.toNat == 0x2029

def isBlank (c : Char) : Bool := c == ' ' || c == '\t'

/-- Nothing, or white space, stands at the front. -/
def atSpace (rest : List Char) : Bool :=
  match rest with
  | [] => true
  | c :: _ => isBlank c || isBreak c

/-- Nothing, or a line break, stands at the front. -/
def atLineEnd (rest : List Char) : Bool :=
  match rest with
  | [] => true
  | c :: _ => isBreak c

/-- Why a text is no YAML.  The line is left out where it is the first one. -/
structure Problem where
  text : String
  line : Option Nat
deriving DecidableEq, Repr, Inhabited

namespace Problem

/-- A problem with characters.  The line is that where the unit concerned began, or where the
problem was met, counted from one. -/
def scanning (text : String) (began met : Mark) : Problem :=
  { text := text
    line :=
      if began.line ≠ 0 then some (began.line + 1)
      else if met.line ≠ 0 then some (met.line + 1)
      else none }

/-- A problem with the order of tokens.  Its lines count from zero. -/
def reading (text : String) (began met : Mark) : Problem :=
  { text := text
    line :=
      if began.line ≠ 0 then some began.line
      else if met.line ≠ 0 then some met.line
      else none }

def message (p : Problem) : String :=
  match p.line with
  | some line => "yaml: line " ++ toString line ++ ": " ++ p.text
  | none => "yaml: " ++ p.text

end Problem

end UntypedLambda.Yaml
