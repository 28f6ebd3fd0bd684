import Mathlib.Logic.Relation

/-! # Nameless terms

Lambda terms up to the choice of bound names: a bound variable is the number of binders that
stand between it and its own.  Renaming and substitution act on all indices at once, so that
two of them in a row are one.  `Beta` contracts exactly one redex. -/
set_option autoImplicit false

namespace UntypedLambda

/-- What a variable stands for that no binder in sight owns: a free variable, known by its
name, or a binder further out, known by its number.  A hole counts as a constant too. -/
inductive Constant where
  | free (name : String)
  | outside (id : Int)
  | hole
deriving DecidableEq, Repr, Inhabited

inductive Nameless where
  | bound (index : Nat)
  | constant (c : Constant)
  | abs (body : Nameless)
  | app (fn arg : Nameless)
deriving DecidableEq, Repr, Inhabited

namespace Nameless

/-! ## Renaming and substitution -/

def up (ρ : Nat → Nat) : Nat → Nat
  | 0 => 0
  | n + 1 => ρ n + 1

def rename (ρ : Nat → Nat) : Nameless → Nameless
  | bound n => bound (ρ n)
  | constant c => constant c
  | abs body => abs (body.rename (up ρ))
  | app fn arg => app (fn.rename ρ) (arg.rename ρ)

def lift (σ : Nat → Nameless) : Nat → Nameless
  | 0 => bound 0
  | n + 1 => (σ n).rename (· + 1)

def subst (σ : Nat → Nameless) : Nameless → Nameless
  | bound n => σ n
  | constant c => constant c
  | abs body => abs (body.subst (lift σ))
  | app fn arg => app (fn.subst σ) (arg.subst σ)

/-- `arg` for the innermost index; the others move in by one. -/
def point (arg : Nameless) : Nat → Nameless
  | 0 => arg
  | n + 1 => bound n

/-- Puts `arg` for the variable of the binder around `body`, which goes away.  No index of
`arg` is captured. -/
def instantiate (body arg : Nameless) : Nameless := body.subst (point arg)

theorem up_comp (ρ τ : Nat → Nat) : up τ ∘ up ρ = up (τ ∘ ρ) := by
  funext n
  cases n <;> rfl

theorem lift_comp_up (ρ : Nat → Nat) (σ : Nat → Nameless) : lift σ ∘ up ρ = lift (σ ∘ ρ) := by
  funext n
  cases n <;> rfl

theorem lift_bound : lift bound = bound := by
  funext n
  cases n <;> rfl

theorem rename_rename (t : Nameless) (ρ τ : Nat → Nat) :
    (t.rename ρ).rename τ = t.rename (τ ∘ ρ) := by
  induction t generalizing ρ τ with
  | bound n => rfl
  | constant c => rfl
  | abs body ih => simp only [rename, ih, up_comp]
  | app fn arg ihf iha => simp only [rename, ihf, iha]

theorem subst_rename (t : Nameless) (ρ : Nat → Nat) (σ : Nat → Nameless) :
    (t.rename ρ).subst σ = t.subst (σ ∘ ρ) := by
  induction t generalizing ρ σ with
  | bound n => rfl
  | constant c => rfl
  | abs body ih => simp only [rename, subst, ih, lift_comp_up]
  | app fn arg ihf iha => simp only [rename, subst, ihf, iha]

theorem rename_lift (ρ : Nat → Nat) (σ : Nat → Nameless) (n : Nat) :
    (lift σ n).rename (up ρ) = lift (fun n => (σ n).rename ρ) n := by
  cases n with
  | zero => rfl
  | succ n =>
      simp only [lift, rename_rename]
      rfl

theorem rename_subst (t : Nameless) (ρ : Nat → Nat) (σ : Nat → Nameless) :
    (t.subst σ).rename ρ = t.subst fun n => (σ n).rename ρ := by
  induction t generalizing ρ σ with
  | bound n => rfl
  | constant c => rfl
  | abs body ih => simp only [rename, subst, ih, rename_lift]
  | app fn arg ihf iha => simp only [rename, subst, ihf, iha]

theorem subst_lift (σ τ : Nat → Nameless) (n : Nat) :
    (lift σ n).subst (lift τ) = lift (fun n => (σ n).subst τ) n := by
  cases n with
  | zero => rfl
  | succ n =>
      simp only [lift, subst_rename, rename_subst]
      rfl

theorem subst_subst (t : Nameless) (σ τ : Nat → Nameless) :
    (t.subst σ).subst τ = t.subst fun n => (σ n).subst τ := by
  induction t generalizing σ τ with
  | bound n => rfl
  | constant c => rfl
  | abs body ih => simp only [subst, ih, subst_lift]
  | app fn arg ihf iha => simp only [subst, ihf, iha]

theorem subst_bound (t : Nameless) : t.subst bound = t := by
  induction t with
  | bound n => rfl
  | constant c => rfl
  | abs body ih => simp only [subst, lift_bound, ih]
  | app fn arg ihf iha => simp only [subst, ihf, iha]

/-- A term that does not use the binder around it is not changed by an argument. -/
theorem instantiate_rename_succ (t arg : Nameless) : (t.rename (· + 1)).instantiate arg = t := by
  rw [instantiate, subst_rename]
  exact subst_bound t

theorem rename_succ_inj {t u : Nameless} : t.rename (· + 1) = u.rename (· + 1) ↔ t = u := by
  constructor
  · intro same
    rw [← instantiate_rename_succ t t, same, instantiate_rename_succ]
  · exact congrArg _

/-- A substitution goes past a binder and the argument that is put for it. -/
theorem subst_instantiate (body arg : Nameless) (σ : Nat → Nameless) :
    (body.instantiate arg).subst σ = (body.subst (lift σ)).instantiate (arg.subst σ) := by
  simp only [instantiate, subst_subst]
  congr 1
  funext n
  cases n with
  | zero => rfl
  | succ n => exact (instantiate_rename_succ (σ n) (arg.subst σ)).symm

theorem rename_instantiate (body arg : Nameless) (ρ : Nat → Nat) :
    (body.instantiate arg).rename ρ = (body.rename (up ρ)).instantiate (arg.rename ρ) := by
  simp only [instantiate, rename_subst, subst_rename]
  congr 1
  funext n
  cases n <;> rfl

/-! ## One contraction -/

/-- Contracts exactly one redex, anywhere in a term. -/
inductive Beta : Nameless → Nameless → Prop where
  | redex (body arg : Nameless) : Beta (app (abs body) arg) (body.instantiate arg)
  | body {t u : Nameless} (step : Beta t u) : Beta (abs t) (abs u)
  | fn {t u : Nameless} (arg : Nameless) (step : Beta t u) : Beta (app t arg) (app u arg)
  | arg (fn : Nameless) {t u : Nameless} (step : Beta t u) : Beta (app fn t) (app fn u)

/-- Any number of contractions, in any order. -/
abbrev Reduces : Nameless → Nameless → Prop := Relation.ReflTransGen Beta

abbrev Convertible : Nameless → Nameless → Prop := Relation.EqvGen Beta

def IsNormal (t : Nameless) : Prop := ∀ u, ¬ Beta t u

end Nameless

end UntypedLambda
