import UntypedLambda.Error

/-! # Folding a term, within a depth

A fold goes from the leaves to the root, functions before arguments, and threads a state
through the nodes in that order.  It gives up at a hole, or below `Fold.maxDepth`; the state
keeps what was done until then. -/
set_option autoImplicit false

namespace UntypedLambda

namespace Term

namespace Fold

def maxDepth : Nat := 1000

/-- What to do at each kind of node, given the node's parts and the values of its subterms. -/
structure Algebra (σ α : Type) where
  var : String → Int → Bool → σ → α × σ
  abs : String → Int → Term → α → σ → α × σ
  app : Term → Term → α → α → σ → α × σ

/-- Folds a term with `room` levels left to go. -/
def within {σ α : Type} (alg : Algebra σ α) : Term → (room : Nat) → σ → Except WalkError α × σ
  | _, 0, s => (.error .tooDeep, s)
  | .hole, _ + 1, s => (.error .hole, s)
  | .var name id renamed, _ + 1, s =>
    let (value, s) := alg.var name id renamed s
    (.ok value, s)
  | .abs name id body, room + 1, s =>
    match within alg body room s with
    | (.error e, s) => (.error e, s)
    | (.ok inner, s) =>
      let (value, s) := alg.abs name id body inner s
      (.ok value, s)
  | .app fn arg, room + 1, s =>
    match within alg fn room s with
    | (.error e, s) => (.error e, s)
    | (.ok left, s) =>
      match within alg arg room s with
      | (.error e, s) => (.error e, s)
      | (.ok right, s) =>
        let (value, s) := alg.app fn arg left right s
        (.ok value, s)

end Fold

def fold {σ α : Type} (alg : Fold.Algebra σ α) (t : Term) (s : σ) : Except WalkError α × σ :=
  Fold.within alg t (Fold.maxDepth + 1) s

/-! ## Visiting nodes -/

/-- Appends each node that is wanted to the list of those visited. -/
def Fold.visiting (wanted : Term → Bool) : Fold.Algebra (List Term) Unit :=
  let visit (node : Term) (seen : List Term) : Unit × List Term :=
    ((), if wanted node then node :: seen else seen)
  { var := fun name id renamed => visit (.var name id renamed)
    abs := fun name id body _ => visit (.abs name id body)
    app := fun fn arg _ _ => visit (.app fn arg) }

/-- The wanted nodes in post-order, as far as the walk gets, and the error that stops it. -/
def traverse (wanted : Term → Bool) (t : Term) : List Term × Except WalkError Unit :=
  let (result, seen) := t.fold (Fold.visiting wanted) []
  (seen.reverse, result)

/-! ## Counting nodes -/

def Fold.counting : Fold.Algebra Unit Nat where
  var := fun _ _ _ s => (1, s)
  abs := fun _ _ _ n s => (n + 1, s)
  app := fun _ _ m n s => (m + n + 1, s)

def size (t : Term) : Except WalkError Nat := (t.fold Fold.counting ()).1

end Term

end UntypedLambda
