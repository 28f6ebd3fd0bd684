import UntypedLambda.Proofs.Nameless

/-! # Confluence

Contractions done in any order can be brought together again.  A parallel step contracts any
choice of the redexes that a term has; the development of a term contracts all of them, and
every parallel step out of a term can still be completed to its development.

Main statements: `eq_of_reduces_of_isNormal`, a term has at most one normal form, and
`eq_of_convertible_of_isNormal`, convertible terms share it. -/
set_option autoImplicit false

namespace UntypedLambda.Nameless

open Relation

/-! ## Parallel steps -/

/-- Contracts any choice of the redexes in a term, all at once. -/
inductive Parallel : Nameless → Nameless → Prop where
  | bound (index : Nat) : Parallel (bound index) (bound index)
  | constant (c : Constant) : Parallel (constant c) (constant c)
  | abs {t t' : Nameless} (body : Parallel t t') : Parallel (abs t) (abs t')
  | app {t t' u u' : Nameless} (fn : Parallel t t') (arg : Parallel u u') :
      Parallel (app t u) (app t' u')
  | redex {t t' u u' : Nameless} (body : Parallel t t') (arg : Parallel u u') :
      Parallel (app (abs t) u) (t'.instantiate u')

namespace Parallel

theorem refl (t : Nameless) : Parallel t t := by
  induction t with
  | bound n => exact .bound n
  | constant c => exact .constant c
  | abs body ih => exact .abs ih
  | app fn arg ihf iha => exact .app ihf iha

theorem rename {t t' : Nameless} (step : Parallel t t') (ρ : Nat → Nat) :
    Parallel (t.rename ρ) (t'.rename ρ) := by
  induction step generalizing ρ with
  | bound n => exact .bound (ρ n)
  | constant c => exact .constant c
  | abs _ ih => exact .abs (ih (up ρ))
  | app _ _ ihf iha => exact .app (ihf ρ) (iha ρ)
  | redex _ _ ihb iha =>
      rw [rename_instantiate]
      exact .redex (ihb (up ρ)) (iha ρ)

theorem lift {σ τ : Nat → Nameless} (steps : ∀ n, Parallel (σ n) (τ n)) (n : Nat) :
    Parallel (lift σ n) (lift τ n) := by
  cases n with
  | zero => exact .bound 0
  | succ n => exact (steps n).rename (· + 1)

/-- Terms and what is put for their variables may step together. -/
theorem subst {t t' : Nameless} (step : Parallel t t') {σ τ : Nat → Nameless}
    (steps : ∀ n, Parallel (σ n) (τ n)) : Parallel (t.subst σ) (t'.subst τ) := by
  induction step generalizing σ τ with
  | bound n => exact steps n
  | constant c => exact .constant c
  | abs _ ih => exact .abs (ih (lift steps))
  | app _ _ ihf iha => exact .app (ihf steps) (iha steps)
  | redex _ _ ihb iha =>
      rw [subst_instantiate]
      exact .redex (ihb (lift steps)) (iha steps)

theorem instantiate {t t' u u' : Nameless} (body : Parallel t t') (arg : Parallel u u') :
    Parallel (t.instantiate u) (t'.instantiate u') := by
  apply body.subst
  intro n
  cases n with
  | zero => exact arg
  | succ n => exact .bound n

theorem exists_of_abs {t u : Nameless} (step : Parallel (.abs t) u) :
    ∃ t', u = .abs t' ∧ Parallel t t' := by
  cases step with
  | abs body => exact ⟨_, rfl, body⟩

end Parallel

/-! ## Development -/

/-- Contracts every redex that the term itself shows, and none that arises on the way. -/
def develop : Nameless → Nameless
  | bound n => bound n
  | constant c => constant c
  | abs body => abs body.develop
  | app fn arg =>
    match fn with
    | abs body => body.develop.instantiate arg.develop
    | bound n => app (bound n) arg.develop
    | constant c => app (constant c) arg.develop
    | app fn arg' => app (app fn arg').develop arg.develop

/-- Whatever a parallel step has left out can be made up for. -/
theorem Parallel.to_develop {t u : Nameless} (step : Parallel t u) : Parallel u t.develop := by
  induction step with
  | bound n => exact .bound n
  | constant c => exact .constant c
  | abs _ ih => exact .abs ih
  | @app t t' u u' fn _ ihf iha =>
      cases t with
      | bound n => exact .app ihf iha
      | constant c => exact .app ihf iha
      | app t₁ t₂ => exact .app ihf iha
      | abs b =>
          -- The step has passed over the redex at the root, which the development contracts.
          obtain ⟨b', rfl, _⟩ := fn.exists_of_abs
          obtain ⟨b'', same, body⟩ := ihf.exists_of_abs
          simp only [develop, Nameless.abs.injEq] at same
          subst same
          exact .redex body iha
  | redex _ _ ihb iha => exact ihb.instantiate iha

theorem Beta.parallel {t u : Nameless} (step : Beta t u) : Parallel t u := by
  induction step with
  | redex body arg => exact .redex (.refl body) (.refl arg)
  | body _ ih => exact .abs ih
  | fn arg _ ih => exact .app ih (.refl arg)
  | arg fn _ ih => exact .app (.refl fn) ih

/-! ## Reduction in contexts -/

namespace Reduces

theorem abs {t u : Nameless} (steps : Reduces t u) : Reduces (abs t) (abs u) :=
  ReflTransGen.lift Nameless.abs (fun _ _ => Beta.body) _ _ steps

theorem app {t t' u u' : Nameless} (fn : Reduces t t') (arg : Reduces u u') :
    Reduces (app t u) (app t' u') := by
  have left : Reduces (.app t u) (.app t' u) :=
    ReflTransGen.lift (Nameless.app · u) (fun _ _ => Beta.fn u) _ _ fn
  have right : Reduces (.app t' u) (.app t' u') :=
    ReflTransGen.lift (Nameless.app t') (fun _ _ => Beta.arg t') _ _ arg
  exact left.trans right

end Reduces

theorem Parallel.reduces {t u : Nameless} (step : Parallel t u) : Reduces t u := by
  induction step with
  | bound n => exact .refl
  | constant c => exact .refl
  | abs _ ih => exact ih.abs
  | app _ _ ihf iha => exact ihf.app iha
  | @redex t t' u u' _ _ ihb iha => exact (ihb.abs.app iha).tail (.redex t' u')

theorem reflTransGen_parallel : ReflTransGen Parallel = Reduces := by
  funext t u
  apply propext
  constructor
  · exact reflTransGen_closed (fun _ _ => Parallel.reduces) _ _
  · exact ReflTransGen.mono (fun _ _ => Beta.parallel) _ _

/-! ## Uniqueness of normal forms -/

theorem parallel_diamond (t u v : Nameless) (first : Parallel t u) (second : Parallel t v) :
    ∃ w, ReflGen Parallel u w ∧ ReflTransGen Parallel v w :=
  ⟨t.develop, .single first.to_develop, .single second.to_develop⟩

theorem Reduces.join {t u v : Nameless} (first : Reduces t u) (second : Reduces t v) :
    Join Reduces u v := by
  rw [← reflTransGen_parallel] at first second ⊢
  exact church_rosser parallel_diamond first second

theorem Convertible.join {t u : Nameless} (conversion : Convertible t u) : Join Reduces t u := by
  have equivalence : Equivalence (Join Reduces) := by
    rw [← reflTransGen_parallel]
    exact equivalence_join_reflTransGen parallel_diamond
  induction conversion with
  | rel t u step => exact ⟨u, .single step, .refl⟩
  | refl t => exact equivalence.refl t
  | symm t u _ ih => exact equivalence.symm ih
  | trans t u v _ _ ihl ihr => exact equivalence.trans ihl ihr

theorem IsNormal.eq_of_reduces {t u : Nameless} (normal : IsNormal t) (steps : Reduces t u) :
    u = t :=
  (reflTransGen_iff_eq normal).mp steps

/-- A term reduces to one normal form at most, whatever the order of the contractions. -/
theorem eq_of_reduces_of_isNormal {t u v : Nameless} (first : Reduces t u)
    (second : Reduces t v) (normalFirst : IsNormal u) (normalSecond : IsNormal v) : u = v := by
  obtain ⟨w, left, right⟩ := first.join second
  rw [← normalFirst.eq_of_reduces left, normalSecond.eq_of_reduces right]

theorem eq_of_convertible_of_isNormal {t t' u v : Nameless} (conversion : Convertible t t')
    (first : Reduces t u) (second : Reduces t' v) (normalFirst : IsNormal u)
    (normalSecond : IsNormal v) : u = v := by
  obtain ⟨w, left, right⟩ := conversion.join
  obtain ⟨x, fromU, fromW⟩ := first.join left
  obtain rfl := normalFirst.eq_of_reduces fromU
  exact eq_of_reduces_of_isNormal (right.trans fromW) second normalFirst normalSecond

end UntypedLambda.Nameless
