import UntypedLambda.Error

/-! # Work under a depth bound

Expanding and reducing nest at most so deep; work that would go deeper stops, and says how
far it had come. -/
set_option autoImplicit false

namespace Except

@[simp] theorem mapError_ok {ε ε' α : Type} (f : ε → ε') (a : α) :
    (ok a : Except ε α).mapError f = ok a :=
  rfl

@[simp] theorem mapError_error {ε ε' α : Type} (f : ε → ε') (e : ε) :
    (error e : Except ε α).mapError f = error (f e) :=
  rfl

end Except

namespace UntypedLambda

namespace Bound

def default : Nat := 1000

/-- The bound that a setting asks for: the default, unless the setting is positive. -/
def ofSetting (setting : Int) : Nat := if setting < 1 then default else setting.toNat

end Bound

inductive Stop.Cause where
  | hole
  | tooDeep (visited : Term) (depth : Nat)
deriving DecidableEq, Repr, Inhabited

/-- Why work stopped, and what the term looks like that it stopped in. -/
structure Stop where
  cause : Stop.Cause
  reached : Term
deriving DecidableEq, Repr, Inhabited

namespace Stop

/-- The same stop, seen from the term around. -/
def inside (wrap : Term → Term) (s : Stop) : Stop := { s with reached := wrap s.reached }

def toError (atHole : WalkError) (s : Stop) : Error :=
  match s.cause with
  | .hole => .walk atHole
  | .tooDeep visited depth => .depth ⟨visited, depth, s.reached⟩

end Stop

end UntypedLambda
