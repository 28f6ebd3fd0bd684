import UntypedLambda.Proofs.Nameless

/-! # Evaluation of nameless terms

`Evaluates` says what the reduction of a term to the end computes, without names, numbers or a
bound: function and argument first, then the contraction if there is one, then what it yields.
A term may have a normal form and no value, as the argument is evaluated even if it is dropped.

Main statements: `Evaluates.isNormal`, `IsNormal.evaluates`. -/
set_option autoImplicit false

namespace UntypedLambda.Nameless

/-! ## Normal terms -/

def isAbs : Nameless → Bool
  | abs _ => true
  | _ => false

@[simp] theorem isNormal_bound (n : Nat) : IsNormal (bound n) :=
  fun _ step => nomatch step

@[simp] theorem isNormal_constant (c : Constant) : IsNormal (constant c) :=
  fun _ step => nomatch step

@[simp] theorem isNormal_abs {t : Nameless} : IsNormal (abs t) ↔ IsNormal t := by
  constructor
  · exact fun normal u step => normal _ (.body step)
  · rintro normal _ (_ | step)
    exact normal _ step

@[simp] theorem isNormal_app {fn arg : Nameless} :
    IsNormal (app fn arg) ↔ fn.isAbs = false ∧ IsNormal fn ∧ IsNormal arg := by
  constructor
  · intro normal
    refine ⟨?_, fun u step => normal _ (.fn arg step), fun u step => normal _ (.arg fn step)⟩
    cases fn with
    | abs body => exact absurd (.redex body arg) (normal _)
    | _ => rfl
  · rintro ⟨stuck, normalFn, normalArg⟩ u step
    cases step with
    | redex body arg => cases stuck
    | fn _ step => exact normalFn _ step
    | arg _ step => exact normalArg _ step

theorem isAbs_rename (t : Nameless) (ρ : Nat → Nat) : (t.rename ρ).isAbs = t.isAbs := by
  cases t <;> rfl

theorem isNormal_rename {t : Nameless} {ρ : Nat → Nat} : IsNormal (t.rename ρ) ↔ IsNormal t := by
  induction t generalizing ρ with
  | bound n => simp [rename]
  | constant c => simp [rename]
  | abs body ih => simp [rename, ih]
  | app fn arg ihf iha => simp [rename, ihf, iha, isAbs_rename]

/-! ## Terms without open indices -/

/-- Nothing can be put for a variable of the term. -/
def Closed (t : Nameless) : Prop := ∀ σ, t.subst σ = t

theorem rename_eq_subst (t : Nameless) (ρ : Nat → Nat) : t.rename ρ = t.subst (bound ∘ ρ) := by
  rw [← subst_rename, subst_bound]

theorem Closed.rename {t : Nameless} (closed : t.Closed) (ρ : Nat → Nat) : t.rename ρ = t :=
  (rename_eq_subst t ρ).trans (closed _)

/-- A binder that a term does not use is out of the way of a substitution. -/
theorem subst_lift_rename (t : Nameless) (σ : Nat → Nameless) :
    (t.rename (· + 1)).subst (lift σ) = (t.subst σ).rename (· + 1) := by
  rw [subst_rename, rename_subst]
  rfl

theorem subst_point_rename (t arg : Nameless) : (t.rename (· + 1)).subst (point arg) = t :=
  instantiate_rename_succ t arg

/-! ## Evaluation -/

inductive Evaluates : Nameless → Nameless → Prop where
  | bound (index : Nat) : Evaluates (bound index) (bound index)
  | constant (c : Constant) : Evaluates (constant c) (constant c)
  | abs {t v : Nameless} (body : Evaluates t v) : Evaluates (abs t) (abs v)
  | app {fn f arg a : Nameless} (function : Evaluates fn f) (stuck : f.isAbs = false)
      (argument : Evaluates arg a) : Evaluates (app fn arg) (app f a)
  | redex {fn body arg a v : Nameless} (function : Evaluates fn (abs body))
      (argument : Evaluates arg a) (reduct : Evaluates (body.instantiate a) v) :
      Evaluates (app fn arg) v

theorem Evaluates.isNormal {t v : Nameless} (evaluates : Evaluates t v) : IsNormal v := by
  induction evaluates with
  | bound n => exact isNormal_bound n
  | constant c => exact isNormal_constant c
  | abs _ ih => exact isNormal_abs.mpr ih
  | app _ stuck _ ihf iha => exact isNormal_app.mpr ⟨stuck, ihf, iha⟩
  | redex _ _ _ _ _ ih => exact ih

theorem IsNormal.evaluates {t : Nameless} (normal : IsNormal t) : Evaluates t t := by
  induction t with
  | bound n => exact .bound n
  | constant c => exact .constant c
  | abs body ih => exact .abs (ih (isNormal_abs.mp normal))
  | app fn arg ihf iha =>
      obtain ⟨stuck, normalFn, normalArg⟩ := isNormal_app.mp normal
      exact .app (ihf normalFn) stuck (iha normalArg)

/-- A contraction that leaves a normal term. -/
theorem evaluates_of_instantiate_eq {fn body arg a v : Nameless}
    (function : Evaluates fn (abs body)) (argument : Evaluates arg a)
    (reduct : body.instantiate a = v) (normal : IsNormal v) : Evaluates (app fn arg) v := by
  subst reduct
  exact .redex function argument normal.evaluates

end UntypedLambda.Nameless
