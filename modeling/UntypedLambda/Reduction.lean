import UntypedLambda.Bound
import UntypedLambda.Term.Path

/-! # Reduction to normal form

Function and argument are reduced first.  If the function is then an abstraction, the binders
inside it whose names occur in the argument are renamed, the argument is substituted, and the
result is reduced again.  Every step is recorded with the whole term as it then stands. -/
set_option autoImplicit false

namespace UntypedLambda

namespace Reduction

structure Options where
  renameFree : Bool := false
  bound : Nat := Bound.default
deriving DecidableEq, Repr, Inhabited

/-- What is handed out and counted over the life of a reducer.  New binders are numbered
downwards from minus one, so they differ from all numbers that a parser gives. -/
structure Counters where
  names : Nat := 0
  freeNames : Nat := 0
  lastId : Int := 0
  betas : Nat := 0
  alphas : Nat := 0
  frees : Nat := 0
deriving DecidableEq, Repr, Inhabited

/-- A step, with the term that it leaves. -/
inductive Event where
  | alpha (root binder : Term) (fresh old : String)
  | beta (root arg fn : Term)
  | free (old fresh : String)
deriving DecidableEq, Repr, Inhabited

namespace Event

/-- The same step, seen from the term around. -/
def inside (wrap : Term → Term) : Event → Event
  | alpha root binder fresh old => alpha (wrap root) binder fresh old
  | beta root arg fn => beta (wrap root) arg fn
  | free old fresh => free old fresh

/-- The step in words. -/
def detail : Event → String
  | alpha _ binder fresh old =>
    "Alpha reducing '" ++ binder.text ++ "' with name '" ++ fresh ++ "' (was '" ++ old ++ "')"
  | beta _ arg fn => "Beta reducing '" ++ arg.text ++ "' into '" ++ fn.text ++ "'"
  | free old fresh => "'" ++ old ++ "' → '" ++ fresh ++ "'"

end Event

structure Run where
  result : Except Stop Term
  events : List Event
  counters : Counters

namespace Run

def done (t : Term) (c : Counters) : Run := ⟨.ok t, [], c⟩

/-- The same run, seen from the term around.  The result is still that of the part. -/
def inside (wrap : Term → Term) (r : Run) : Run :=
  { r with
    result := r.result.mapError (Stop.inside wrap)
    events := r.events.map (Event.inside wrap) }

def map (f : Term → Term) (r : Run) : Run := { r with result := r.result.map f }

def andThen (r : Run) (next : Term → Counters → Run) : Run :=
  match r.result with
  | .error s => { r with result := .error s }
  | .ok t =>
    let s := next t r.counters
    { s with events := r.events ++ s.events }

end Run

/-! ## One contraction -/

/-- Renames the binder at `path` to a name and a number not used before. -/
def renameBinder (wrap : Term → Term) (path : Path) (body : Term) (c : Counters) : Run :=
  match body.at? path with
  | some (.abs old id inner) =>
    let fresh := "X" ++ toString c.names
    let body := body.modify (Term.rename fresh (c.lastId - 1)) path
    { result := .ok body
      events := [.alpha (wrap body) (.abs old id inner) fresh old]
      counters :=
        { c with names := c.names + 1, lastId := c.lastId - 1, alphas := c.alphas + 1 } }
  | _ => .done body c

/-- Renames the binders at `paths`, one after the other. -/
def freshen (wrap : Term → Term) : List Path → Term → Counters → Run
  | [], body, c => .done body c
  | path :: paths, body, c => (renameBinder wrap path body c).andThen (freshen wrap paths)

/-- Contracts `(λname. body) arg`, after renaming the binders of the body whose names the
argument uses. -/
def contract (name : String) (id : Int) (body arg : Term) (c : Counters) : Run :=
  (freshen (fun b => .app (.abs name id b) arg) (body.bindersNamed arg.names) body c).andThen
    fun body c =>
      let reduct := Term.substitute id arg body
      { result := .ok reduct
        events := [.beta reduct arg (.abs name id body)]
        counters := { c with betas := c.betas + 1 } }

/-- Gives a free variable a name of its own, once. -/
def renameFree (name : String) (c : Counters) : Run :=
  let fresh := "X`" ++ toString c.freeNames
  { result := .ok (.var fresh 0 true)
    events := [.free name fresh]
    counters := { c with freeNames := c.freeNames + 1, frees := c.frees + 1 } }

/-! ## Normal form -/

/-- Reduces a term that stands `depth` levels down, with `room` levels left to go. -/
def visit (o : Options) : (room depth : Nat) → Term → Counters → Run
  | 0, depth, t, c => ⟨.error ⟨.tooDeep t depth, t⟩, [], c⟩
  | _ + 1, _, .hole, c => ⟨.error ⟨.hole, .hole⟩, [], c⟩
  | _ + 1, _, .var name id renamed, c =>
    if o.renameFree && id == 0 && !renamed then renameFree name c
    else .done (.var name id renamed) c
  | room + 1, depth, .abs name id body, c =>
    ((visit o room (depth + 1) body c).inside (.abs name id)).map (.abs name id)
  | room + 1, depth, .app fn arg, c =>
    ((visit o room (depth + 1) fn c).inside (.app · arg)).andThen fun fn c =>
      ((visit o room (depth + 1) arg c).inside (.app fn)).andThen fun arg c =>
        match fn with
        | .abs name id body =>
          (contract name id body arg c).andThen (visit o room (depth + 1))
        | fn => .done (.app fn arg) c

/-- Reduces a whole term, from the counters that earlier work has left. -/
def run (o : Options) (c : Counters) (t : Term) : Run := visit o (o.bound + 1) 0 t c

def Run.toExcept (r : Run) : Except Error Term := r.result.mapError (Stop.toError .hole)

end Reduction

/-- The normal form, under the default bound. -/
def Term.reduce (t : Term) : Except Error Term := (Reduction.run {} {} t).toExcept

end UntypedLambda
