import UntypedLambda.Proofs.Term.Fingerprint

/-! # Fingerprints and the choice of names

The numbers that the structure fingerprint gives to names are drawn when a name is met for the
first time.  So if all names are replaced and different ones stay different, the same numbers are
drawn at the same nodes.  Numbers of binders and marks are not looked at by either fingerprint.

Main statement: `structureFingerprint_mapNames`. -/
set_option autoImplicit false

namespace UntypedLambda.Term

/-- Replaces every name, of binders and of variables. -/
def mapNames (σ : String → String) : Term → Term
  | hole => hole
  | var name id renamed => var (σ name) id renamed
  | abs name id body => abs (σ name) id (body.mapNames σ)
  | app fn arg => app (fn.mapNames σ) (arg.mapNames σ)

theorem sameNodes_mapNames {P : String → String → Prop} {σ : String → String} {t : Term}
    (pairs : ∀ l ∈ t.labels, P l.1 (σ l.1)) : SameNodes P t (t.mapNames σ) := by
  induction t with
  | hole => trivial
  | var name id renamed => exact pairs (name, id) List.mem_cons_self
  | abs name id body ih =>
      refine ⟨pairs (name, id) List.mem_cons_self, ih fun l member => ?_⟩
      exact pairs l (List.mem_cons_of_mem _ member)
  | app fn arg ihf iha =>
      exact ⟨ihf fun l member => pairs l (List.mem_append_left _ member),
        iha fun l member => pairs l (List.mem_append_right _ member)⟩

/-- The value fingerprint is made of the names and the shape alone. -/
theorem within_valueAlgebra_eq {t u : Term} (same : SameNodes (· = ·) t u) (room : Nat)
    (d : Fingerprint.Draws) : Fold.within Fingerprint.valueAlgebra u room d =
      Fold.within Fingerprint.valueAlgebra t room d := by
  induction t generalizing u room d with
  | hole =>
      cases u with
      | hole => rfl
      | _ => exact same.elim
  | var name id renamed =>
      cases u with
      | var name' id' renamed' =>
          obtain rfl : name = name' := same
          cases room <;> rfl
      | _ => exact same.elim
  | abs name id body ih =>
      cases u with
      | abs name' id' body' =>
          obtain ⟨rfl, inside⟩ := same
          cases room with
          | zero => rfl
          | succ room =>
              rw [Fold.within_abs, Fold.within_abs, ih inside]
              rfl
      | _ => exact same.elim
  | app fn arg ihf iha =>
      cases u with
      | app fn' arg' =>
          obtain ⟨left, right⟩ := same
          cases room with
          | zero => rfl
          | succ room =>
              have second := fun d => iha right room d
              rw [Fold.within_app, Fold.within_app, ihf left]
              simp only [second]
              rfl
      | _ => exact same.elim

theorem valueFingerprint_eq_of_sameNodes {t u : Term} (same : SameNodes (· = ·) t u) :
    u.valueFingerprint = t.valueFingerprint := by
  rw [valueFingerprint, valueFingerprint, fold, fold, within_valueAlgebra_eq same]

/-- Other names do not change the structure fingerprint, if names that differ in the term still
differ afterwards.  Other numbers and marks change neither fingerprint. -/
theorem structureFingerprint_mapNames (t : Term) :
    (∀ σ : String → String, (∀ x ∈ t.names, ∀ y ∈ t.names, σ x = σ y → x = y) →
      (t.mapNames σ).structureFingerprint = t.structureFingerprint) ∧
    ∀ u, SameNodes (· = ·) t u →
      u.structureFingerprint = t.structureFingerprint ∧
        u.valueFingerprint = t.valueFingerprint := by
  refine ⟨fun σ injective => ?_, fun u same => ⟨?_, valueFingerprint_eq_of_sameNodes same⟩⟩
  · have unique : Relator.BiUnique fun x y => x ∈ t.names ∧ y = σ x := by
      constructor
      · rintro x x' y ⟨member, rfl⟩ ⟨member', same⟩
        exact injective x member x' member' same
      · rintro x y y' ⟨_, rfl⟩ ⟨_, rfl⟩
        rfl
    have nodes : SameNodes (fun x y => x ∈ t.names ∧ y = σ x) t (t.mapNames σ) :=
      sameNodes_mapNames fun l member => ⟨mem_names.mpr ⟨l, member, rfl⟩, rfl⟩
    exact (structureFingerprint_eq_of_sameNodes unique nodes).symm
  · have unique : Relator.BiUnique fun x y : String => x = y :=
      ⟨fun _ _ _ first second => first.trans second.symm,
        fun _ _ _ first second => first.symm.trans second⟩
    exact (structureFingerprint_eq_of_sameNodes unique same).symm

/-- `λx. x (λx. x y)`, with numbers and marks to be chosen. -/
def shadowing (outer inner : Int) (renamed : Bool) : Term :=
  .abs "x" outer (.app (.var "x" outer renamed)
    (.abs "x" inner (.app (.var "x" inner false) (.var "y" 0 renamed))))

/-- `y` stands for `x` and another name for `y`; names that do not occur may fall together. -/
theorem structureFingerprint_mapNames_shadowing :
    ((shadowing 1 2 false).mapNames fun x =>
        if x = "x" then "y" else "z").structureFingerprint =
        (shadowing 1 2 false).structureFingerprint ∧
      (shadowing 7 7 true).structureFingerprint = (shadowing 1 2 false).structureFingerprint ∧
      (shadowing 7 7 true).valueFingerprint = (shadowing 1 2 false).valueFingerprint := by
  obtain ⟨named, numbered⟩ := structureFingerprint_mapNames (shadowing 1 2 false)
  refine ⟨named _ (by decide), numbered _ ?_⟩
  exact ⟨rfl, rfl, rfl, rfl, rfl⟩

end UntypedLambda.Term
