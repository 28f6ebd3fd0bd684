import UntypedLambda.Bound

/-! # Expanding definitions

A free variable that names a definition is replaced by that definition, which is expanded in
turn.  Expansion goes from left to right; when it stops, what stands to the left has been
replaced and the rest has not. -/
set_option autoImplicit false

namespace UntypedLambda

namespace Expansion

/-- A name that was replaced, and the definition put in its place. -/
structure Unfolding where
  name : String
  definition : Term
deriving DecidableEq, Repr, Inhabited

structure Run where
  result : Except Stop Term
  unfoldings : List Unfolding

namespace Run

def done (t : Term) : Run := ⟨.ok t, []⟩

/-- The same run, seen from the term around.  The result is still that of the part. -/
def inside (wrap : Term → Term) (r : Run) : Run :=
  { r with result := r.result.mapError (Stop.inside wrap) }

def map (f : Term → Term) (r : Run) : Run := { r with result := r.result.map f }

def andThen (r : Run) (next : Term → Run) : Run :=
  match r.result with
  | .error s => { r with result := .error s }
  | .ok t =>
    let s := next t
    { s with unfoldings := r.unfoldings ++ s.unfoldings }

end Run

/-- Expands a term that stands `depth` levels down, with `room` levels left to go. -/
def visit (definitions : String → Option Term) : (room depth : Nat) → Term → Run
  | 0, depth, t => ⟨.error ⟨.tooDeep t depth, t⟩, []⟩
  | _ + 1, _, .hole => ⟨.error ⟨.hole, .hole⟩, []⟩
  | room + 1, depth, .var name id renamed =>
    match if id = 0 then definitions name else none with
    | none => .done (.var name id renamed)
    | some definition =>
      let below := (visit definitions room (depth + 1) definition).inside
        fun _ => .var name id renamed
      { below with unfoldings := ⟨name, definition⟩ :: below.unfoldings }
  | room + 1, depth, .abs name id body =>
    ((visit definitions room (depth + 1) body).inside (.abs name id)).map (.abs name id)
  | room + 1, depth, .app fn arg =>
    ((visit definitions room (depth + 1) fn).inside (.app · arg)).andThen fun fn =>
      ((visit definitions room (depth + 1) arg).inside (.app fn)).map (.app fn)

/-- Expands a whole term.  Definitions nested deeper than `bound` stop the work. -/
def run (definitions : String → Option Term) (bound : Nat) (t : Term) : Run :=
  visit definitions (bound + 1) 0 t

namespace Run

def toExcept (r : Run) : Except Error Term := r.result.mapError (Stop.toError .holeExpanded)

/-- The expanded term, to be shown when there was something to expand. -/
def summary? (r : Run) : Option Term :=
  match r.result with
  | .ok t => if r.unfoldings.isEmpty then none else some t
  | .error _ => none

/-- What the term given becomes when the work is done in its place.  A variable at the root
has no place around it and stays. -/
def inPlace (given : Term) (r : Run) : Term :=
  match r.result with
  | .error s => s.reached
  | .ok t =>
    match given with
    | .var name id renamed => .var name id renamed
    | _ => t

end Run

end Expansion

end UntypedLambda
