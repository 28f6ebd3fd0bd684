import UntypedLambda.Text.Blank
import UntypedLambda.Text.Quoted

/-! # Verbosity

How much of a derivation is recorded.  Levels are compared as numbers; the three named ones are
nothing, the steps, and the steps with explanations. -/
set_option autoImplicit false

namespace UntypedLambda

structure Verbosity where
  level : Int
deriving DecidableEq, Repr, Inhabited

namespace Verbosity

def none : Verbosity := ⟨0⟩

def low : Verbosity := ⟨1⟩

def high : Verbosity := ⟨2⟩

def name (v : Verbosity) : String :=
  if v = low then "low" else if v = high then "high" else "none"

def atLeast (v least : Verbosity) : Bool := least.level ≤ v.level

/-- Reads a level's name, in any letter case and with white space around it.  An empty name is
the lowest level. -/
def ofName (s : String) : Except String Verbosity :=
  let word := String.ofList ((Text.trimBy Text.isWhite s.toList).map Text.lowerAscii)
  if word = "" ∨ word = "none" then .ok none
  else if word = "low" then .ok low
  else if word = "high" then .ok high
  else .error ("unknown verbosity " ++ Text.quoted s)

end Verbosity

end UntypedLambda
