import UntypedLambda.Term

/-! # Positions in a term -/
set_option autoImplicit false

namespace UntypedLambda

inductive Step where
  | body | fn | arg
deriving DecidableEq, Repr, Inhabited

/-- The way from the root of a term down to one of its nodes. -/
abbrev Path := List Step

namespace Term

/-- The node at a path, if the path exists in the term. -/
def at? : Path → Term → Option Term
  | [], t => some t
  | .body :: p, abs _ _ body => at? p body
  | .fn :: p, app fn _ => at? p fn
  | .arg :: p, app _ arg => at? p arg
  | _ :: _, _ => none

/-- Changes the node at a path.  Where the path does not exist nothing changes. -/
def modify (f : Term → Term) : Path → Term → Term
  | [], t => f t
  | .body :: p, abs name id body => abs name id (modify f p body)
  | .fn :: p, app fn arg => app (modify f p fn) arg
  | .arg :: p, app fn arg => app fn (modify f p arg)
  | _ :: _, t => t

/-- The paths of the binders that bear one of `names`, in pre-order. -/
def bindersNamed (names : List String) : Term → List Path
  | hole => []
  | var _ _ _ => []
  | abs name _ body =>
    let below := (body.bindersNamed names).map (Step.body :: ·)
    if name ∈ names then [] :: below else below
  | app fn arg =>
    (fn.bindersNamed names).map (Step.fn :: ·) ++ (arg.bindersNamed names).map (Step.arg :: ·)

/-- The path spelled by letters: at an application `f` goes to the function and any other
letter to the argument, at an abstraction every letter goes to the body, and at a leaf the
way ends. -/
def follow : Term → List Char → Path
  | abs _ _ body, _ :: letters => .body :: body.follow letters
  | app fn arg, c :: letters =>
    if c = 'f' then .fn :: fn.follow letters else .arg :: arg.follow letters
  | _, _ => []

/-- The node right above the one at a path.  The root has none, nor has a hole, which is no
node. -/
def parent? (t : Term) (p : Path) : Option Term :=
  if p.isEmpty || at? p t == some hole then none else at? p.dropLast t

/-- The abstractions passed on the way down a path, innermost first and without its end, in
front of those that are `above` already. -/
def enclosing (above : List Term) : Path → Term → List Term
  | .body :: p, abs name id body => enclosing (abs name id body :: above) p body
  | .fn :: p, app fn _ => enclosing above p fn
  | .arg :: p, app _ arg => enclosing above p arg
  | _, _ => above

/-- The nearest abstraction with the number `id`; zero belongs to none. -/
def ownerOf (id : Int) (above : List Term) : Option Term :=
  if id = 0 then none
  else above.find? fun t => match t with
    | abs _ i _ => i == id
    | _ => false

/-- The variables in pre-order, each with the abstraction that binds it, where `above` are
the abstractions around the term, innermost first. -/
def owners (above : List Term) : Term → List (Term × Option Term)
  | hole => []
  | var name id renamed => [(var name id renamed, ownerOf id above)]
  | abs name id body => owners (abs name id body :: above) body
  | app fn arg => owners above fn ++ owners above arg

/-! ## Replacing a child -/

/-- Puts `child` in the place that `step` leads to, if the node has such a place. -/
def replaceChild? (node : Term) (step : Step) (child : Term) : Option Term :=
  match node, step with
  | abs name id _, .body => some (abs name id child)
  | app _ arg, .fn => some (app child arg)
  | app fn _, .arg => some (app fn child)
  | _, _ => none

end Term

end UntypedLambda
