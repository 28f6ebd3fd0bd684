import Mathlib.Logic.Relator
import UntypedLambda.Proofs.Expansion.Dependency
import UntypedLambda.Proofs.Term.Fold
import UntypedLambda.Proofs.Term.Named
import UntypedLambda.Term.Fingerprint

/-! # Fingerprints of terms with other names

The structure fingerprint gives numbers to names, not to binders: a name that is bound twice has
one number, and a binder shares the number of a free variable of its name.  So what counts is
which nodes share a name.  Terms that differ in their bound names have the same fingerprint if
their binders share names in the same way, and may differ otherwise.

Main statements: `structureFingerprint_eq_of_sameNodes`, `equivalent_of_namedAlike`. -/
set_option autoImplicit false

namespace UntypedLambda

open Fingerprint

/-! ## Names one by one -/

/-- The same stream, and the same numbers for names that correspond. -/
structure Fingerprint.Naming.Corresponds (P : String → String → Prop) (n n' : Naming) : Prop where
  draws : n'.draws = n.draws
  known : List.Forall₂ (fun x y => P x.1 y.1 ∧ y.2 = x.2) n.known n'.known

namespace Fingerprint.Naming.Corresponds

variable {P : String → String → Prop} {n n' : Naming}

theorem next (corresponds : Corresponds P n n') :
    n'.next.1 = n.next.1 ∧ Corresponds P n.next.2 n'.next.2 := by
  obtain ⟨draws, known⟩ := corresponds
  simp only [Naming.next, draws]
  exact ⟨trivial, rfl, known⟩

theorem lookup_eq (unique : Relator.BiUnique P) {known known' : List (String × Int64)}
    (related : List.Forall₂ (fun x y => P x.1 y.1 ∧ y.2 = x.2) known known') {name name' : String}
    (pair : P name name') : known'.lookup name' = known.lookup name := by
  induction related with
  | nil => rfl
  | @cons x y known known' first _ ih =>
      obtain ⟨x, id⟩ := x
      obtain ⟨y, id'⟩ := y
      obtain ⟨names, rfl⟩ : P x y ∧ id' = id := first
      have same : (name' == y) = (name == x) := by
        rw [Bool.eq_iff_iff, beq_iff_eq, beq_iff_eq]
        constructor
        · rintro rfl
          exact unique.1 pair names
        · rintro rfl
          exact unique.2 pair names
      rw [List.lookup_cons, List.lookup_cons, same, ih]

theorem idFor (unique : Relator.BiUnique P) (corresponds : Corresponds P n n')
    {name name' : String} (pair : P name name') :
    (n'.idFor name').1 = (n.idFor name).1 ∧
      Corresponds P (n.idFor name).2 (n'.idFor name').2 := by
  have found := lookup_eq unique corresponds.known pair
  obtain ⟨draws, known⟩ := corresponds
  simp only [Naming.idFor, found, draws]
  cases n.known.lookup name with
  | some id => exact ⟨rfl, draws, known⟩
  | none => exact ⟨rfl, rfl, .cons ⟨pair, rfl⟩ known⟩

end Fingerprint.Naming.Corresponds

/-! ## Node by node -/

theorem structureAlgebra_var (name : String) (id : Int) (renamed : Bool) (n : Naming) :
    structureAlgebra.var name id renamed n =
      ((n.next.1 ^^^ 7853) + 41 * (n.next.2.idFor name).1, (n.next.2.idFor name).2) := rfl

theorem structureAlgebra_abs (name : String) (id : Int) (body : Term) (inner : Int64)
    (n : Naming) : structureAlgebra.abs name id body inner n =
      ((n.next.1 ^^^ 7877) + (29 * (n.next.2.idFor name).1 + inner), (n.next.2.idFor name).2) := rfl

theorem structureAlgebra_app (fn arg : Term) (left right : Int64) (n : Naming) :
    structureAlgebra.app fn arg left right n =
      ((n.next.1 ^^^ 7867) + (31 * left + 37 * right), n.next.2) := rfl

namespace Fingerprint

/-- The same outcome, and states that correspond. -/
def Agrees {α : Type} (P : String → String → Prop) (a b : α × Naming) : Prop :=
  b.1 = a.1 ∧ a.2.Corresponds P b.2

section
variable {P : String → String → Prop}

theorem Agrees.var (unique : Relator.BiUnique P) {n n' : Naming}
    (corresponds : n.Corresponds P n') {name name' : String} (pair : P name name') (id id' : Int)
    (renamed renamed' : Bool) : Agrees P (structureAlgebra.var name id renamed n)
      (structureAlgebra.var name' id' renamed' n') := by
  obtain ⟨drawn, after⟩ := corresponds.next
  obtain ⟨number, last⟩ := after.idFor unique pair
  rw [structureAlgebra_var, structureAlgebra_var, Agrees, drawn, number]
  exact ⟨rfl, last⟩

theorem Agrees.abs (unique : Relator.BiUnique P) {n n' : Naming}
    (corresponds : n.Corresponds P n') {name name' : String} (pair : P name name') (id id' : Int)
    (body body' : Term) (inner : Int64) :
    Agrees P (structureAlgebra.abs name id body inner n)
      (structureAlgebra.abs name' id' body' inner n') := by
  obtain ⟨drawn, after⟩ := corresponds.next
  obtain ⟨number, last⟩ := after.idFor unique pair
  rw [structureAlgebra_abs, structureAlgebra_abs, Agrees, drawn, number]
  exact ⟨rfl, last⟩

theorem Agrees.app {n n' : Naming} (corresponds : n.Corresponds P n') (fn arg fn' arg' : Term)
    (left right : Int64) : Agrees P (structureAlgebra.app fn arg left right n)
      (structureAlgebra.app fn' arg' left right n') := by
  obtain ⟨drawn, after⟩ := corresponds.next
  rw [structureAlgebra_app, structureAlgebra_app, Agrees, drawn]
  exact ⟨rfl, after⟩

/-- Only a value that both have is gone on with. -/
theorem Agrees.andThen {a b : Except WalkError Int64 × Naming} (first : Agrees P a b)
    {f f' : Int64 → Naming → Except WalkError Int64 × Naming}
    (next : ∀ value {n n' : Naming}, n.Corresponds P n' → Agrees P (f value n) (f' value n')) :
    Agrees P (Term.Fold.andThen a f) (Term.Fold.andThen b f') := by
  obtain ⟨result, n⟩ := a
  obtain ⟨result', n'⟩ := b
  obtain ⟨same, corresponds⟩ := first
  obtain rfl : result' = result := same
  cases result' with
  | error e => exact ⟨rfl, corresponds⟩
  | ok value => exact next value corresponds

theorem Agrees.ok {a b : Int64 × Naming} (agrees : Agrees P a b) :
    Agrees P ((.ok a.1 : Except WalkError Int64), a.2) (.ok b.1, b.2) :=
  ⟨congrArg Except.ok agrees.1, agrees.2⟩

end

end Fingerprint

namespace Term

/-- The same shape, with names at the same places that correspond. -/
def SameNodes (P : String → String → Prop) : Term → Term → Prop
  | hole, hole => True
  | var name _ _, var name' _ _ => P name name'
  | abs name _ body, abs name' _ body' => P name name' ∧ SameNodes P body body'
  | app fn arg, app fn' arg' => SameNodes P fn fn' ∧ SameNodes P arg arg'
  | _, _ => False

theorem within_sameNodes {P : String → String → Prop} (unique : Relator.BiUnique P) {t u : Term}
    (same : SameNodes P t u) (room : Nat) {n n' : Naming} (corresponds : n.Corresponds P n') :
    Agrees P (Fold.within structureAlgebra t room n) (Fold.within structureAlgebra u room n') := by
  induction t generalizing u room n n' with
  | hole =>
      cases u with
      | hole => cases room <;> exact ⟨rfl, corresponds⟩
      | _ => exact same.elim
  | var name id renamed =>
      cases u with
      | var name' id' renamed' =>
          cases room with
          | zero => exact ⟨rfl, corresponds⟩
          | succ room =>
              rw [Fold.within_var, Fold.within_var]
              exact (Agrees.var unique corresponds same id id' renamed renamed').ok
      | _ => exact same.elim
  | abs name id body ih =>
      cases u with
      | abs name' id' body' =>
          cases room with
          | zero => exact ⟨rfl, corresponds⟩
          | succ room =>
              rw [Fold.within_abs, Fold.within_abs]
              refine (ih same.2 room corresponds).andThen fun inner _ _ corresponds => ?_
              exact (Agrees.abs unique corresponds same.1 id id' body body' inner).ok
      | _ => exact same.elim
  | app fn arg ihf iha =>
      cases u with
      | app fn' arg' =>
          cases room with
          | zero => exact ⟨rfl, corresponds⟩
          | succ room =>
              rw [Fold.within_app, Fold.within_app]
              refine (ihf same.1 room corresponds).andThen fun left _ _ corresponds => ?_
              refine (iha same.2 room corresponds).andThen fun right _ _ corresponds => ?_
              exact (Agrees.app corresponds fn arg fn' arg' left right).ok
      | _ => exact same.elim

theorem structureFingerprint_eq_of_sameNodes {P : String → String → Prop}
    (unique : Relator.BiUnique P) {t u : Term} (same : SameNodes P t u) :
    t.structureFingerprint = u.structureFingerprint := by
  have start : Naming.Corresponds P ⟨.ofSeed "l4mbda", []⟩ ⟨.ofSeed "l4mbda", []⟩ := ⟨rfl, .nil⟩
  have result := (within_sameNodes unique same (Fold.maxDepth + 1) start).1
  rw [structureFingerprint, structureFingerprint, fold, fold, result]

/-! ## The same reading -/

/-- The names of the binders that stand at the same place. -/
def binderPairs : Term → Term → List (String × String)
  | abs name _ body, abs name' _ body' => (name, name') :: binderPairs body body'
  | app fn arg, app fn' arg' => binderPairs fn fn' ++ binderPairs arg arg'
  | _, _ => []

/-- Free names correspond to themselves. -/
def namePairs (t u : Term) : List (String × String) :=
  binderPairs t u ++ t.freeNames.map fun x => (x, x)

/-- Binders share a name with one another, or with a free variable, in one term exactly if they do
in the other. -/
def NamedAlike (t u : Term) : Prop :=
  ∀ p ∈ namePairs t u, ∀ q ∈ namePairs t u, p.1 = q.1 ↔ p.2 = q.2

instance (t u : Term) : Decidable (NamedAlike t u) :=
  inferInstanceAs (Decidable (∀ p ∈ namePairs t u, ∀ q ∈ namePairs t u, p.1 = q.1 ↔ p.2 = q.2))

theorem NamedAlike.biUnique {t u : Term} (alike : NamedAlike t u) :
    Relator.BiUnique fun x y => (x, y) ∈ namePairs t u :=
  ⟨fun _ _ _ left right => (alike _ left _ right).mpr rfl,
    fun _ _ _ left right => (alike _ left _ right).mp rfl⟩

theorem namePlace_cases (scope : List String) (name : String) :
    (∃ k, scope[k]? = some name ∧ namePlace scope name = .bound k) ∨
      name ∉ scope ∧ namePlace scope name = .constant (.free name) := by
  rw [namePlace, Nameless.place]
  cases found : scope.idxOf? name with
  | none => exact Or.inr ⟨List.idxOf?_eq_none_iff.mp found, rfl⟩
  | some k =>
      obtain ⟨lt, isName, _⟩ := List.findIdx?_eq_some_iff_getElem.mp found
      refine Or.inl ⟨k, ?_, rfl⟩
      rw [List.getElem?_eq_getElem lt, beq_iff_eq.mp isName]

/-- Names with the same place correspond: they are of binders at one depth, or free and equal. -/
theorem pair_of_namePlace {P : String → String → Prop} {scope scope' : List String}
    (outer : List.Forall₂ P scope scope') {name name' : String}
    (same : namePlace scope name = namePlace scope' name') (free : name ∉ scope → P name name) :
    P name name' := by
  rcases namePlace_cases scope name with ⟨k, here, place⟩ | ⟨absent, place⟩ <;>
    rcases namePlace_cases scope' name' with ⟨k', here', place'⟩ | ⟨absent', place'⟩ <;>
    rw [place, place'] at same <;> cases same
  · obtain ⟨lt, rfl⟩ := List.getElem?_eq_some_iff.mp here
    obtain ⟨lt', rfl⟩ := List.getElem?_eq_some_iff.mp here'
    exact outer.get lt lt'
  · exact free absent

/-- Only variables read like variables. -/
theorem exists_var_of_nameReading {t : Term} {scope scope' : List String} {name : String}
    (same : t.nameReading scope = namePlace scope' name) :
    ∃ name' id renamed, t = .var name' id renamed := by
  have place := namePlace_cases scope' name
  rw [← same] at place
  cases t with
  | var name' id renamed => exact ⟨name', id, renamed, rfl⟩
  | _ => simp [nameReading] at place

/-- Below binders whose names correspond, terms that read the same have the same nodes, if the
names of their own binders correspond as well and free names stand for themselves. -/
theorem sameNodes_of_nameReading {P : String → String → Prop} {t u : Term}
    {scope scope' : List Label}
    (outer : List.Forall₂ P (scope.map Prod.fst) (scope'.map Prod.fst))
    (same : t.nameReading (scope.map Prod.fst) = u.nameReading (scope'.map Prod.fst))
    (shown : t.EveryVar BoundFaithful scope) (binders : ∀ p ∈ binderPairs t u, P p.1 p.2)
    (free : ∀ x ∈ t.freeNames, P x x) : SameNodes P t u := by
  induction t generalizing u scope scope' with
  | hole =>
      cases u with
      | hole => trivial
      | var name' id' renamed' =>
          obtain ⟨_, _, _, impossible⟩ := exists_var_of_nameReading same
          cases impossible
      | _ => cases same
  | var name id renamed =>
      obtain ⟨name', id', renamed', rfl⟩ := exists_var_of_nameReading same.symm
      refine pair_of_namePlace outer same fun absent => free name ?_
      refine mem_freeNames_var.mpr ⟨?_, rfl⟩
      by_contra number
      exact absent (List.mem_map_of_mem (f := Prod.fst) (shown number).mem)
  | abs name id body ih =>
      cases u with
      | abs name' id' body' =>
          have pair : P name name' := binders (name, name') List.mem_cons_self
          refine ⟨pair, ?_⟩
          refine @ih body' ((name, id) :: scope) ((name', id') :: scope') ?_ ?_ shown ?_ ?_
          · exact .cons pair outer
          · exact (Nameless.abs.inj same)
          · exact fun p member => binders p (List.mem_cons_of_mem _ member)
          · exact fun x member => free x (by rwa [freeNames_abs])
      | var name' id' renamed' =>
          obtain ⟨_, _, _, impossible⟩ := exists_var_of_nameReading same
          cases impossible
      | _ => cases same
  | app fn arg ihf iha =>
      cases u with
      | app fn' arg' =>
          obtain ⟨left, right⟩ := Nameless.app.inj same
          refine ⟨ihf outer left shown.1 ?_ ?_, iha outer right shown.2 ?_ ?_⟩
          · exact fun p member => binders p (List.mem_append_left _ member)
          · exact fun x member => free x (by rw [freeNames_app]; exact List.mem_append_left _ member)
          · exact fun p member => binders p (List.mem_append_right _ member)
          · exact fun x member => free x (by rw [freeNames_app]; exact List.mem_append_right _ member)
      | var name' id' renamed' =>
          obtain ⟨_, _, _, impossible⟩ := exists_var_of_nameReading same
          cases impossible
      | _ => cases same

/-! ## Binders with names of their own -/

theorem map_fst_binderPairs (t u : Term) :
    ((binderPairs t u).map Prod.fst).Sublist (t.binderLabels.map Prod.fst) := by
  induction t generalizing u with
  | abs name id body ih =>
      cases u with
      | abs name' id' body' => exact (ih body').cons_cons name
      | _ => exact List.nil_sublist _
  | app fn arg ihf iha =>
      cases u with
      | app fn' arg' =>
          simp only [binderPairs, labelsOf, List.map_append]
          exact (ihf fn').append (iha arg')
      | _ => exact List.nil_sublist _
  | _ => exact List.nil_sublist _

theorem binderPairs_swap (t u : Term) : binderPairs u t = (binderPairs t u).map Prod.swap := by
  induction t generalizing u with
  | abs name id body ih =>
      cases u with
      | abs name' id' body' => rw [binderPairs, binderPairs, ih]; rfl
      | _ => rfl
  | app fn arg ihf iha =>
      cases u with
      | app fn' arg' => rw [binderPairs, binderPairs, ihf, iha, List.map_append]
      | _ => rfl
  | _ => cases u <;> rfl

theorem map_snd_binderPairs (t u : Term) :
    ((binderPairs t u).map Prod.snd).Sublist (u.binderLabels.map Prod.fst) := by
  have first := map_fst_binderPairs u t
  rwa [binderPairs_swap, List.map_map] at first

/-- Each binder has a name of its own, which is none of the names `free`. -/
def BindersApart (free : List String) (t : Term) : Prop :=
  (t.binderLabels.map Prod.fst).Nodup ∧ ∀ x ∈ free, x ∉ t.binderLabels.map Prod.fst

instance (free : List String) (t : Term) : Decidable (BindersApart free t) :=
  inferInstanceAs (Decidable (_ ∧ _))

theorem BindersApart.namedAlike {t u : Term} (apart : BindersApart t.freeNames t)
    (apart' : BindersApart t.freeNames u) : NamedAlike t u := by
  obtain ⟨own, apart⟩ := apart
  obtain ⟨own', apart'⟩ := apart'
  have first := (map_fst_binderPairs t u).nodup own
  have second := (map_snd_binderPairs t u).nodup own'
  -- no binder, on either side, has the name of a free variable
  have parted : ∀ p ∈ binderPairs t u, ∀ x ∈ t.freeNames, p.1 ≠ x ∧ p.2 ≠ x := by
    intro p member x inFree
    constructor
    · rintro rfl
      exact apart _ inFree ((map_fst_binderPairs t u).subset (List.mem_map_of_mem member))
    · rintro rfl
      exact apart' _ inFree ((map_snd_binderPairs t u).subset (List.mem_map_of_mem member))
  intro p inP q inQ
  rcases List.mem_append.mp inP with binder | free <;>
    rcases List.mem_append.mp inQ with binder' | free'
  · exact ⟨fun same => congrArg Prod.snd (List.inj_on_of_nodup_map first binder binder' same),
      fun same => congrArg Prod.fst (List.inj_on_of_nodup_map second binder binder' same)⟩
  · obtain ⟨x, inFree, rfl⟩ := List.mem_map.mp free'
    exact iff_of_false (parted p binder x inFree).1 (parted p binder x inFree).2
  · obtain ⟨x, inFree, rfl⟩ := List.mem_map.mp free
    exact iff_of_false (parted q binder' x inFree).1.symm (parted q binder' x inFree).2.symm
  · obtain ⟨x, _, rfl⟩ := List.mem_map.mp free
    obtain ⟨y, _, rfl⟩ := List.mem_map.mp free'
    exact Iff.rfl

/-! ## The result -/

/-- Terms that read the same have the same structure fingerprint if their binders are named
alike, in particular if all binders of both have names of their own. -/
theorem equivalent_of_namedAlike {t u : Term} (faithful : t.Faithful) (faithful' : u.Faithful)
    (same : t.idReading [] = u.idReading [])
    (named : NamedAlike t u ∨ BindersApart t.freeNames t ∧ BindersApart t.freeNames u) :
    t.structureFingerprint = u.structureFingerprint ∧ t.equivalent u = true := by
  have alike : NamedAlike t u := named.elim id fun apart => apart.1.namedAlike apart.2
  have reading : t.nameReading [] = u.nameReading [] :=
    faithful.trans (same.trans faithful'.symm)
  have nodes : SameNodes (fun x y => (x, y) ∈ namePairs t u) t u := by
    refine @sameNodes_of_nameReading _ t u [] [] .nil reading (faithful_iff.mp faithful).1 ?_ ?_
    · exact fun p member => List.mem_append_left _ member
    · exact fun x member => List.mem_append_right _ (List.mem_map_of_mem member)
  have equal := structureFingerprint_eq_of_sameNodes alike.biUnique nodes
  exact ⟨equal, by rw [equivalent, equal, beq_self_eq_true]⟩

/-- `λn. λm. n (n m)` -/
def twice (n m : String) : Term :=
  .abs n 1 (.abs m 2 (.app (.var n 1 false) (.app (.var n 1 false) (.var m 2 false))))

/-- `λx. x (λx. x) y`, with another binder at either place -/
def reused (n m : String) : Term :=
  .abs n 1 (.app (.app (.var n 1 false) (.abs m 2 (.var m 2 false))) (.var "y" 0 false))

theorem equivalent_of_namedAlike_twice :
    ((twice "f" "x").Faithful ∧ (twice "g" "z").Faithful ∧
      (twice "f" "x").idReading [] = (twice "g" "z").idReading [] ∧
      (BindersApart (twice "f" "x").freeNames (twice "f" "x") ∧
        BindersApart (twice "f" "x").freeNames (twice "g" "z")) ∧
      (twice "f" "x").structureFingerprint = (twice "g" "z").structureFingerprint ∧
      (twice "f" "x").equivalent (twice "g" "z") = true) ∧
    (reused "x" "x").Faithful ∧ (reused "z" "z").Faithful ∧
      (reused "x" "x").idReading [] = (reused "z" "z").idReading [] ∧
      NamedAlike (reused "x" "x") (reused "z" "z") ∧
      (reused "x" "x").structureFingerprint = (reused "z" "z").structureFingerprint ∧
      (reused "x" "x").equivalent (reused "z" "z") = true :=
  ⟨⟨rfl, rfl, rfl, by decide, equivalent_of_namedAlike rfl rfl rfl (.inr (by decide))⟩,
    rfl, rfl, rfl, by decide, equivalent_of_namedAlike rfl rfl rfl (.inl (by decide))⟩

/-- `(λx. x) (λn. n)` -/
def identities (n : String) : Term :=
  .app (.abs "x" 1 (.var "x" 1 false)) (.abs n 2 (.var n 2 false))

/-- Two binders that share a name in one term and not in the other. -/
theorem not_equivalent_identities :
    ((identities "x").HoleFree ∧ (identities "x").height ≤ 1000 ∧
        (identities "x").EveryVar ScopedByName [] ∧ (identities "x").Faithful) ∧
      ((identities "y").HoleFree ∧ (identities "y").height ≤ 1000 ∧
        (identities "y").EveryVar ScopedByName [] ∧ (identities "y").Faithful) ∧
      (identities "x").idReading [] = (identities "y").idReading [] ∧
      (identities "x").structureFingerprint ≠ (identities "y").structureFingerprint ∧
      (identities "x").equivalent (identities "y") = false := by
  refine ⟨⟨by decide, by decide, by decide, rfl⟩, ⟨by decide, by decide, by decide, rfl⟩, rfl, ?_⟩
  decide +kernel

end Term

end UntypedLambda
