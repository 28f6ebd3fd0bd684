import UntypedLambda.Proofs.Nameless
import UntypedLambda.Proofs.Term.Labels

/-! # Two readings of a term

By numbers, a variable belongs to the nearest binder around it with the same number, and
number zero is free: this is what a reduction computes with.  By names, it belongs to the
nearest binder with the same name: this is what a reader of the text sees.

Main statements: renaming a binder to a new number keeps the reading by numbers, and
`idReading_substitute`, substitution is instantiation there, provided that no binder shares a
number with the argument. -/
set_option autoImplicit false

namespace UntypedLambda

open Nameless

/-- A variable with the key `x` below binders with the keys `scope`, innermost first: it
belongs to the nearest one with the same key, and is `otherwise` if there is none. -/
def Nameless.place {κ : Type} [DecidableEq κ] (scope : List κ) (x : κ) (otherwise : Constant) :
    Nameless :=
  match scope.idxOf? x with
  | some n => .bound n
  | none => .constant otherwise

theorem Nameless.place_cons_self {κ : Type} [DecidableEq κ] (scope : List κ) (x : κ)
    (c : Constant) : place (x :: scope) x c = .bound 0 := by
  simp [place, List.idxOf?_cons]

theorem Nameless.place_cons_of_ne {κ : Type} [DecidableEq κ] {k x : κ} (other : k ≠ x)
    (scope : List κ) (c : Constant) :
    place (k :: scope) x c = (place scope x c).rename (· + 1) := by
  simp only [place, List.idxOf?_cons, beq_eq_false_iff_ne.mpr other]
  cases scope.idxOf? x <;> rfl

namespace Term

def idPlace (scope : List Int) (name : String) (id : Int) : Nameless :=
  if id = 0 then .constant (.free name) else place scope id (.outside id)

/-- The reading by numbers, below binders with the numbers `scope`. -/
def idReading (scope : List Int) : Term → Nameless
  | hole => .constant .hole
  | var name id _ => idPlace scope name id
  | abs _ id body => .abs (body.idReading (id :: scope))
  | app fn arg => .app (fn.idReading scope) (arg.idReading scope)

def namePlace (scope : List String) (name : String) : Nameless := place scope name (.free name)

/-- The reading by names, below binders with the names `scope`. -/
def nameReading (scope : List String) : Term → Nameless
  | hole => .constant .hole
  | var name _ _ => namePlace scope name
  | abs name _ body => .abs (body.nameReading (name :: scope))
  | app fn arg => .app (fn.nameReading scope) (arg.nameReading scope)

/-- Both readings agree, so the text shows what each variable belongs to. -/
def Faithful (t : Term) : Prop := t.nameReading [] = t.idReading []

instance (t : Term) : Decidable t.Faithful :=
  inferInstanceAs (Decidable (t.nameReading [] = t.idReading []))

/-! ## Where a number leads -/

theorem idPlace_zero (scope : List Int) (name : String) :
    idPlace scope name 0 = .constant (.free name) := rfl

theorem idPlace_cons_self {id : Int} (bound : id ≠ 0) (scope : List Int) (name : String) :
    idPlace (id :: scope) name id = .bound 0 := by
  rw [idPlace, if_neg bound, place_cons_self]

theorem idPlace_cons_of_ne {k id : Int} (other : k ≠ id) (scope : List Int) (name : String) :
    idPlace (k :: scope) name id = (idPlace scope name id).rename (· + 1) := by
  unfold idPlace
  split
  · rfl
  · rw [place_cons_of_ne other]

/-- A substitution that says how two scopes differ says so below one more binder. -/
theorem idPlace_cons_subst {scope scope' : List Int} {σ : Nat → Nameless} {k id : Int}
    {name : String}
    (related : id ≠ k → idPlace scope' name id = (idPlace scope name id).subst σ) :
    idPlace (k :: scope') name id = (idPlace (k :: scope) name id).subst (lift σ) := by
  by_cases free : id = 0
  · subst free
    rfl
  · by_cases own : id = k
    · subst own
      rw [idPlace_cons_self free, idPlace_cons_self free]
      rfl
    · rw [idPlace_cons_of_ne (Ne.symm own), idPlace_cons_of_ne (Ne.symm own), related own,
        rename_subst, subst_rename]
      rfl

theorem idReading_subst {scope scope' : List Int} {σ : Nat → Nameless} (t : Term)
    (related : ∀ l ∈ t.labels, idPlace scope' l.1 l.2 = (idPlace scope l.1 l.2).subst σ) :
    t.idReading scope' = (t.idReading scope).subst σ := by
  induction t generalizing scope scope' σ with
  | hole => rfl
  | var name id renamed => exact related (name, id) (by simp [labelsOf])
  | abs name id body ih =>
      simp only [idReading, subst, Nameless.abs.injEq]
      apply ih
      intro l member
      apply idPlace_cons_subst
      intro _
      exact related l (by simp [labelsOf, member])
  | app fn arg ihf iha =>
      simp only [idReading, subst, Nameless.app.injEq]
      constructor
      · exact ihf fun l member => related l (by simp [labelsOf, member])
      · exact iha fun l member => related l (by simp [labelsOf, member])

/-- Only the places of the labels in a term matter for its reading. -/
theorem idReading_congr {scope scope' : List Int} (t : Term)
    (same : ∀ l ∈ t.labels, idPlace scope' l.1 l.2 = idPlace scope l.1 l.2) :
    t.idReading scope' = t.idReading scope := by
  have related : t.idReading scope' = (t.idReading scope).subst bound :=
    idReading_subst t fun l member => (same l member).trans (subst_bound _).symm
  rwa [subst_bound] at related

/-- A binder that owns nothing in a term only moves its outer indices. -/
theorem idReading_cons {scope : List Int} {k : Int} (t : Term)
    (unused : ∀ l ∈ t.labels, k ≠ l.2) :
    t.idReading (k :: scope) = (t.idReading scope).rename (· + 1) := by
  have related : t.idReading (k :: scope) = (t.idReading scope).subst (bound ∘ (· + 1)) := by
    apply idReading_subst
    intro l member
    rw [idPlace_cons_of_ne (unused l member), ← subst_rename, subst_bound]
  rw [related, ← subst_rename, subst_bound]

/-! ## Renaming a binder -/

theorem idReading_renameBound {scope scope' : List Int} {old id : Int} {name : String} (t : Term)
    (others : ∀ l ∈ t.labels, l.2 ≠ old → idPlace scope' l.1 l.2 = idPlace scope l.1 l.2)
    (moved : ∀ n, idPlace scope' name id = idPlace scope n old)
    (fresh : ∀ l ∈ t.labels, l.2 ≠ id) :
    (t.renameBound old name id).idReading scope' = t.idReading scope := by
  induction t generalizing scope scope' with
  | hole => rfl
  | var n i renamed =>
      simp only [renameBound]
      split
      · rename_i owned
        rw [owned]
        exact moved n
      · rename_i other
        exact others (n, i) (by simp [labelsOf]) other
  | abs n k body ih =>
      have below : ∀ l ∈ body.labels, l.2 ≠ old →
          idPlace (k :: scope') l.1 l.2 = idPlace (k :: scope) l.1 l.2 := by
        intro l member other
        have lifted : idPlace (k :: scope') l.1 l.2 =
            (idPlace (k :: scope) l.1 l.2).subst (lift bound) := by
          apply idPlace_cons_subst
          intro _
          rw [others l (by simp [labelsOf, member]) other, subst_bound]
        rwa [lift_bound, subst_bound] at lifted
      simp only [renameBound]
      split
      · rename_i inner
        simp only [idReading, Nameless.abs.injEq]
        apply idReading_congr
        intro l member
        by_cases owned : l.2 = old
        · by_cases free : l.2 = 0
          · rw [free, idPlace_zero, idPlace_zero]
          · rw [inner, ← owned, idPlace_cons_self free, idPlace_cons_self free]
        · exact below l member owned
      · rename_i other
        simp only [idReading, Nameless.abs.injEq]
        apply ih below
        · intro m
          have apart : k ≠ id := fresh (n, k) (by simp [labelsOf])
          rw [idPlace_cons_of_ne apart, idPlace_cons_of_ne other, moved m]
        · exact fun l member => fresh l (by simp [labelsOf, member])
  | app fn arg ihf iha =>
      simp only [renameBound, idReading, Nameless.app.injEq]
      constructor
      · exact ihf (fun l member => others l (by simp [labelsOf, member])) moved
          fun l member => fresh l (by simp [labelsOf, member])
      · exact iha (fun l member => others l (by simp [labelsOf, member])) moved
          fun l member => fresh l (by simp [labelsOf, member])

/-- Renaming a binder to a number that is not in use keeps the reading by numbers. -/
theorem Renamed.idReading_eq {name : String} {id : Int} {t u : Term}
    (change : Renamed name id t u) (bound : id ≠ 0) (binders : ∀ l ∈ t.binderLabels, l.2 ≠ 0)
    (fresh : ∀ l ∈ t.labels, l.2 ≠ id) (scope : List Int) :
    u.idReading scope = t.idReading scope := by
  induction change generalizing scope with
  | here n i body =>
      have boundOld : i ≠ 0 := binders (n, i) (by simp [Term.labelsOf])
      simp only [idReading, Nameless.abs.injEq]
      apply idReading_renameBound
      · intro l member other
        have apart : id ≠ l.2 := (fresh l (by simp [Term.labelsOf, member])).symm
        rw [idPlace_cons_of_ne apart, idPlace_cons_of_ne (Ne.symm other)]
      · intro m
        rw [idPlace_cons_self bound, idPlace_cons_self boundOld]
      · exact fun l member => fresh l (by simp [Term.labelsOf, member])
  | body n i _ ih =>
      simp only [idReading, Nameless.abs.injEq]
      exact ih (fun l member => binders l (by simp [Term.labelsOf, member]))
        (fun l member => fresh l (by simp [Term.labelsOf, member])) _
  | fn arg _ ih =>
      simp only [idReading, Nameless.app.injEq, and_true]
      exact ih (fun l member => binders l (by simp [Term.labelsOf, member]))
        (fun l member => fresh l (by simp [Term.labelsOf, member])) _
  | arg fn _ ih =>
      simp only [idReading, Nameless.app.injEq, true_and]
      exact ih (fun l member => binders l (by simp [Term.labelsOf, member]))
        (fun l member => fresh l (by simp [Term.labelsOf, member])) _

/-! ## Substitution -/

theorem idReading_substitute_of_related {scope scope' : List Int} {σ : Nat → Nameless} {id : Int}
    {arg : Term} (t : Term)
    (others : ∀ l ∈ t.labels, l.2 ≠ id →
      idPlace scope' l.1 l.2 = (idPlace scope l.1 l.2).subst σ)
    (replaced : ∀ n, arg.idReading scope' = (idPlace scope n id).subst σ)
    (apart : ∀ l ∈ t.binderLabels, ∀ m ∈ arg.labels, l.2 ≠ m.2) :
    (substitute id arg t).idReading scope' = (t.idReading scope).subst σ := by
  induction t generalizing scope scope' σ with
  | hole => rfl
  | var n i renamed =>
      simp only [substitute]
      split
      · rename_i owned
        rw [replaced n, ← owned]
        rfl
      · rename_i other
        exact others (n, i) (by simp [labelsOf]) other
  | abs n k body ih =>
      simp only [substitute]
      split
      · rename_i inner
        -- The inner binder owns all variables with its number, so nothing is replaced.
        simp only [idReading, subst, Nameless.abs.injEq]
        apply idReading_subst
        intro l member
        apply idPlace_cons_subst
        intro other
        exact others l (by simp [labelsOf, member]) (inner ▸ other)
      · rename_i other
        simp only [idReading, subst, Nameless.abs.injEq]
        apply ih
        · intro l member different
          apply idPlace_cons_subst
          intro _
          exact others l (by simp [labelsOf, member]) different
        · intro m
          have unused : ∀ l ∈ arg.labels, k ≠ l.2 := apart (n, k) (by simp [labelsOf])
          rw [idReading_cons arg unused, replaced m, idPlace_cons_of_ne other, rename_subst,
            subst_rename]
          rfl
        · exact fun l member => apart l (by simp [labelsOf, member])
  | app fn arg' ihf iha =>
      simp only [substitute, idReading, subst, Nameless.app.injEq]
      constructor
      · exact ihf (fun l member => others l (by simp [labelsOf, member])) replaced
          fun l member => apart l (by simp [labelsOf, member])
      · exact iha (fun l member => others l (by simp [labelsOf, member])) replaced
          fun l member => apart l (by simp [labelsOf, member])

/-- Substitution by number is instantiation, if no binder on the way shares a number with
the argument. -/
theorem idReading_substitute {id : Int} {arg body : Term} (bound : id ≠ 0)
    (apart : ∀ l ∈ body.binderLabels, ∀ m ∈ arg.labels, l.2 ≠ m.2) (scope : List Int) :
    (substitute id arg body).idReading scope =
      (body.idReading (id :: scope)).instantiate (arg.idReading scope) := by
  apply idReading_substitute_of_related body _ _ apart
  · intro l _ other
    rw [idPlace_cons_of_ne (Ne.symm other), subst_rename]
    exact (subst_bound _).symm
  · intro n
    rw [idPlace_cons_self bound]
    rfl

/-! ## Redexes -/

/-- No application in the term has an abstraction as its function. -/
def RedexFree : Term → Prop
  | hole => True
  | var _ _ _ => True
  | abs _ _ body => body.RedexFree
  | app fn arg => fn.isAbs = false ∧ fn.RedexFree ∧ arg.RedexFree

theorem RedexFree.isNormal_idReading {t : Term} (free : t.RedexFree) (scope : List Int) :
    (t.idReading scope).IsNormal := by
  induction t generalizing scope with
  | hole =>
      intro u step
      cases step
  | var name id renamed =>
      intro u step
      simp only [idReading, idPlace, place] at step
      split at step
      · cases step
      · split at step <;> cases step
  | abs name id body ih =>
      intro u step
      cases step with
      | body step => exact ih free _ _ step
  | app fn arg ihf iha =>
      obtain ⟨noAbs, fnFree, argFree⟩ := free
      intro u step
      simp only [idReading] at step
      generalize reading : fn.idReading scope = f at step
      cases step with
      | redex body _ =>
          cases fn with
          | abs name id body => simp [isAbs] at noAbs
          | hole => cases reading
          | app fn arg => cases reading
          | var name id renamed =>
              simp only [idReading, idPlace, place] at reading
              split at reading
              · cases reading
              · split at reading <;> cases reading
      | fn _ step => exact ihf fnFree scope _ (reading ▸ step)
      | arg _ step => exact iha argFree scope _ step

end Term

end UntypedLambda
