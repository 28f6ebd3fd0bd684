import UntypedLambda.Number.Integer

/-! # Terms

Lambda terms whose binders carry a name, for the reader, and a number, which says what a
variable belongs to.  A variable with number zero is free; any other number refers to the
nearest enclosing abstraction with that number. -/
set_option autoImplicit false

namespace UntypedLambda

/-- `hole` stands for a subterm that is absent.  The mark `renamed` of a variable says that
it is a free variable which was given its present name by a reduction. -/
inductive Term where
  | hole
  | var (name : String) (id : Int) (renamed : Bool)
  | abs (name : String) (id : Int) (body : Term)
  | app (fn arg : Term)
deriving DecidableEq, Repr, Inhabited

namespace Term

/-! ## Printing -/

def text : Term → String
  | hole => "<nil>"
  | var name _ _ => name
  | abs name _ body => "(λ" ++ name ++ ". " ++ body.text ++ ")"
  | app fn arg => "(" ++ fn.text ++ " " ++ arg.text ++ ")"

/-- A name with the number of its binder, of which 64 bits are shown. -/
def tag (name : String) (id : Int) : String := name ++ "#" ++ toString (Number.word id)

/-- The text with every name followed by its number, and `!` after a renamed variable. -/
def annotated : Term → String
  | hole => "<nil>"
  | var name id renamed => tag name id ++ (if renamed then "!" else "")
  | abs name id body => "(λ" ++ tag name id ++ ". " ++ body.annotated ++ ")"
  | app fn arg => "(" ++ fn.annotated ++ " " ++ arg.annotated ++ ")"

/-! ## Nodes in pre-order -/

/-- Every node, parents before children and functions before arguments; holes are no nodes. -/
def nodes : Term → List Term
  | hole => []
  | var name id renamed => [var name id renamed]
  | abs name id body => abs name id body :: body.nodes
  | app fn arg => app fn arg :: (fn.nodes ++ arg.nodes)

def isBoundVar : Term → Bool
  | var _ id _ => id != 0
  | _ => false

def isFreeVar : Term → Bool
  | var _ id _ => id == 0
  | _ => false

def isAbs : Term → Bool
  | abs _ _ _ => true
  | _ => false

/-- The name that a node itself bears: a variable's, or a binder's. -/
def ownName? : Term → Option String
  | var name _ _ => some name
  | abs name _ _ => some name
  | _ => none

def boundVars (t : Term) : List Term := t.nodes.filter isBoundVar

def freeVars (t : Term) : List Term := t.nodes.filter isFreeVar

def binders (t : Term) : List Term := t.nodes.filter isAbs

/-- The names used in a term, by variables and binders alike, each at its first appearance. -/
def names (t : Term) : List String := (t.nodes.filterMap ownName?).eraseDups

/-- The names of bound variables, each once, in alphabetical order. -/
def boundNames (t : Term) : List String :=
  ((t.boundVars.filterMap ownName?).eraseDups).mergeSort (· ≤ ·)

/-! ## Renaming and substitution -/

/-- Moves the variables numbered `old` to a new name and number.  An inner binder numbered
`old` owns the variables below it, which stay. -/
def renameBound (old : Int) (name : String) (id : Int) : Term → Term
  | hole => hole
  | var n i renamed => if i = old then var name id renamed else var n i renamed
  | abs n i body => if i = old then abs n i body else abs n i (body.renameBound old name id)
  | app fn arg => app (fn.renameBound old name id) (arg.renameBound old name id)

/-- Renames the binder at the root, together with what it binds. -/
def rename (name : String) (id : Int) : Term → Term
  | abs _ old body => abs name id (body.renameBound old name id)
  | t => t

/-- Puts `arg` in place of the variables numbered `id`, except below an inner binder with
that number. -/
def substitute (id : Int) (arg : Term) : Term → Term
  | hole => hole
  | var n i renamed => if i = id then arg else var n i renamed
  | abs n i body => if i = id then abs n i body else abs n i (substitute id arg body)
  | app fn arg' => app (substitute id arg fn) (substitute id arg arg')

/-- The term with other numbers. -/
def renumber (σ : Int → Int) : Term → Term
  | hole => hole
  | var name id renamed => var name (σ id) renamed
  | abs name id body => abs name (σ id) (body.renumber σ)
  | app fn arg => app (fn.renumber σ) (arg.renumber σ)

/-! ## A literal shape that loops -/

/-- `λx. x x x`, judged by numbers and not by names. -/
def isTripleSelfApplication : Term → Bool
  | abs _ id (app (app (var _ i _) (var _ j _)) (var _ k _)) => i == id && j == id && k == id
  | _ => false

/-- `(λx. x x x) (λx. x x x)`, which grows for ever. -/
def isNonTerminating : Term → Bool
  | app fn arg => fn.isTripleSelfApplication && arg.isTripleSelfApplication
  | _ => false

end Term

end UntypedLambda
