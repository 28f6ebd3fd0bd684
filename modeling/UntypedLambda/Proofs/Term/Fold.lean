import UntypedLambda.Proofs.Term.Labels
import UntypedLambda.Term.Fold

/-! # Folds within a depth

A fold goes on with the value of a subterm or stays with its error.  Where there is a node
everywhere and none of them is too deep, it does what a fold without a bound would do.

Main statement: `within_eq_ok`. -/
set_option autoImplicit false

namespace UntypedLambda.Term.Fold

variable {σ α : Type} (alg : Algebra σ α) (room : Nat) (s : σ)

/-- Goes on with the value, or stays with the error. -/
def andThen (read : Except WalkError α × σ) (next : α → σ → Except WalkError α × σ) :
    Except WalkError α × σ :=
  match read with
  | (.error e, s) => (.error e, s)
  | (.ok value, s) => next value s

theorem within_zero (t : Term) : within alg t 0 s = (.error .tooDeep, s) := by
  cases t <;> rfl

theorem within_var (name : String) (id : Int) (renamed : Bool) :
    within alg (.var name id renamed) (room + 1) s =
      (.ok (alg.var name id renamed s).1, (alg.var name id renamed s).2) := rfl

theorem within_abs (name : String) (id : Int) (body : Term) :
    within alg (.abs name id body) (room + 1) s =
      andThen (within alg body room s) fun inner s =>
        (.ok (alg.abs name id body inner s).1, (alg.abs name id body inner s).2) := rfl

theorem within_app (fn arg : Term) :
    within alg (.app fn arg) (room + 1) s =
      andThen (within alg fn room s) fun left s =>
        andThen (within alg arg room s) fun right s =>
          (.ok (alg.app fn arg left right s).1, (alg.app fn arg left right s).2) := rfl

/-! ## Without a bound -/

/-- The fold of a term without holes, however high it is: the function, then the argument, then
the node. -/
def bottomUp : (t : Term) → t.HoleFree → StateM σ α
  | .var name id renamed, _ => alg.var name id renamed
  | .abs name id body, whole => do
    let inner ← bottomUp body whole
    alg.abs name id body inner
  | .app fn arg, whole => do
    let left ← bottomUp fn whole.1
    let right ← bottomUp arg whole.2
    alg.app fn arg left right

/-- A term that is nowhere absent and not too high is folded to the end, and the bound makes no
difference. -/
theorem within_eq_ok {t : Term} (whole : t.HoleFree) {room : Nat} (fits : t.height < room)
    (s : σ) :
    within alg t room s = (.ok (bottomUp alg t whole s).1, (bottomUp alg t whole s).2) := by
  induction room generalizing t s with
  | zero => exact absurd fits (Nat.not_lt_zero _)
  | succ room ih =>
      cases t with
      | hole => exact whole.elim
      | var name id renamed => rfl
      | abs name id body =>
          have wholeBody : body.HoleFree := whole
          rw [within_abs, ih wholeBody (Nat.lt_of_succ_lt_succ fits)]
          rfl
      | app fn arg =>
          obtain ⟨fitsFn, fitsArg⟩ := Nat.max_lt.mp (Nat.lt_of_succ_lt_succ fits)
          rw [within_app, ih whole.1 fitsFn, andThen, ih whole.2 fitsArg]
          rfl

/-- Within the depth that folds go to, they all succeed. -/
theorem exists_fold_eq_ok {t : Term} (whole : t.HoleFree) (fits : t.height ≤ maxDepth) (s : σ) :
    ∃ value s', t.fold alg s = (.ok value, s') :=
  ⟨_, _, within_eq_ok alg whole (Nat.lt_succ_of_le fits) s⟩

end UntypedLambda.Term.Fold
