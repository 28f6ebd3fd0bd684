import UntypedLambda.Proofs.Term.Labels
import UntypedLambda.Reduction
import UntypedLambda.Term.Fingerprint

/-! # Terms with other numbers

A term keeps its meaning when its numbers are replaced by others, as long as different ones stay
different and zero stays zero.  Printing and fingerprints see no numbers at all; renaming and
substitution only ask whether two of them are equal.

The numbers that a reduction gives out are negative, and a replacement leaves them alone. -/
set_option autoImplicit false

namespace UntypedLambda

/-- A replacement of numbers that changes only those that parsers give out and keeps their
order. -/
structure Renumbering (σ : Int → Int) : Prop where
  increasing : ∀ {i j : Int}, i < j → σ i < σ j
  nonpos : ∀ id ≤ 0, σ id = id

namespace Renumbering

variable {σ : Int → Int}

theorem refl : Renumbering id := ⟨fun less => less, fun _ _ => rfl⟩

/-- Numbers from `next` on move up to those from `next'` on. -/
theorem after (renumbering : Renumbering σ) {next next' : Int} (positive : 0 < next)
    (le : σ next ≤ next') :
    Renumbering fun id => if id < next then σ id else id + (next' - next) where
  increasing := by
    intro i j less
    have monotone : i < next → σ i < σ next := fun below => renumbering.increasing below
    split <;> split
    · exact renumbering.increasing less
    · have := monotone ‹_›
      omega
    · omega
    · omega
  nonpos := by
    intro id nonpos
    rw [if_pos (by omega)]
    exact renumbering.nonpos id nonpos

theorem eq_iff (renumbering : Renumbering σ) {i j : Int} : σ i = σ j ↔ i = j := by
  refine ⟨fun same => ?_, congrArg σ⟩
  rcases Int.lt_trichotomy i j with less | equal | greater
  · have := renumbering.increasing less
    omega
  · exact equal
  · have := renumbering.increasing greater
    omega

theorem zero (renumbering : Renumbering σ) : σ 0 = 0 := renumbering.nonpos 0 (Int.le_refl 0)

theorem eq_zero_iff (renumbering : Renumbering σ) {i : Int} : σ i = 0 ↔ i = 0 := by
  have same : σ i = σ 0 ↔ i = 0 := renumbering.eq_iff
  rwa [renumbering.zero] at same

end Renumbering

namespace Term

variable {σ : Int → Int}

theorem renumber_id (t : Term) : t.renumber id = t := by
  induction t with
  | hole => rfl
  | var name id renamed => rfl
  | abs name id body ih => rw [renumber, ih]; rfl
  | app fn arg ihf iha => rw [renumber, ihf, iha]

theorem renumber_congr {τ : Int → Int} {t : Term} (same : ∀ l ∈ t.labels, σ l.2 = τ l.2) :
    t.renumber σ = t.renumber τ := by
  induction t with
  | hole => rfl
  | var name id renamed => rw [renumber, renumber, same (name, id) (by simp [labelsOf])]
  | abs name id body ih =>
      rw [renumber, renumber, same (name, id) List.mem_cons_self,
        ih fun l member => same l (List.mem_cons_of_mem _ member)]
  | app fn arg ihf iha =>
      rw [renumber, renumber, ihf fun l member => same l (List.mem_append_left _ member),
        iha fun l member => same l (List.mem_append_right _ member)]

theorem renumber_renumber (σ τ : Int → Int) (t : Term) :
    (t.renumber σ).renumber τ = t.renumber (τ ∘ σ) := by
  induction t with
  | hole => rfl
  | var name id renamed => rfl
  | abs name id body ih => rw [renumber, renumber, renumber, ih]; rfl
  | app fn arg ihf iha => rw [renumber, renumber, renumber, ihf, iha]

/-! ## What sees no numbers -/

@[simp] theorem text_renumber (σ : Int → Int) (t : Term) : (t.renumber σ).text = t.text := by
  induction t with
  | hole => rfl
  | var name id renamed => rfl
  | abs name id body ih => rw [renumber, text, text, ih]
  | app fn arg ihf iha => rw [renumber, text, text, ihf, iha]

theorem nodes_renumber (σ : Int → Int) (t : Term) :
    (t.renumber σ).nodes = t.nodes.map (renumber σ) := by
  induction t with
  | hole => rfl
  | var name id renamed => rfl
  | abs name id body ih => simp [renumber, nodes, ih]
  | app fn arg ihf iha => simp [renumber, nodes, ihf, iha]

theorem names_renumber (σ : Int → Int) (t : Term) : (t.renumber σ).names = t.names := by
  have own : ownName? ∘ renumber σ = ownName? := by
    funext node
    cases node <;> rfl
  rw [names, names, nodes_renumber, List.filterMap_map, own]

/-- The algebra makes nothing of numbers, nor of the subterms, whose values it is given. -/
structure Fold.Numberless {α β : Type} (alg : Fold.Algebra α β) : Prop where
  var : ∀ name id id' renamed, alg.var name id renamed = alg.var name id' renamed
  abs : ∀ name id id' body body', alg.abs name id body = alg.abs name id' body'
  app : ∀ fn fn' arg arg', alg.app fn arg = alg.app fn' arg'

theorem Fold.Numberless.within_renumber {α β : Type} {alg : Fold.Algebra α β}
    (numberless : Fold.Numberless alg) (σ : Int → Int) (t : Term) (room : Nat) (s : α) :
    Fold.within alg (t.renumber σ) room s = Fold.within alg t room s := by
  induction t generalizing room s with
  | hole => rfl
  | var name id renamed =>
      cases room with
      | zero => rfl
      | succ room => rw [renumber, within, within, numberless.var name (σ id) id]
  | abs name id body ih =>
      cases room with
      | zero => rfl
      | succ room =>
          rw [renumber, within, within, ih, numberless.abs name (σ id) id (body.renumber σ) body]
  | app fn arg ihf iha =>
      cases room with
      | zero => rfl
      | succ room =>
          rw [renumber, within, within, ihf,
            numberless.app (fn.renumber σ) fn (arg.renumber σ) arg]
          simp only [iha]

theorem valueFingerprint_renumber (σ : Int → Int) (t : Term) :
    (t.renumber σ).valueFingerprint = t.valueFingerprint := by
  have numberless : Fold.Numberless Fingerprint.valueAlgebra :=
    ⟨fun _ _ _ _ => rfl, fun _ _ _ _ _ => rfl, fun _ _ _ _ => rfl⟩
  rw [valueFingerprint, fold, numberless.within_renumber, valueFingerprint, fold]

theorem structureFingerprint_renumber (σ : Int → Int) (t : Term) :
    (t.renumber σ).structureFingerprint = t.structureFingerprint := by
  have numberless : Fold.Numberless Fingerprint.structureAlgebra :=
    ⟨fun _ _ _ _ => rfl, fun _ _ _ _ _ => rfl, fun _ _ _ _ => rfl⟩
  rw [structureFingerprint, fold, numberless.within_renumber, structureFingerprint, fold]

/-! ## Positions -/

theorem at?_renumber (σ : Int → Int) (p : Path) (t : Term) :
    (t.renumber σ).at? p = (t.at? p).map (renumber σ) := by
  induction p generalizing t with
  | nil => rfl
  | cons step p ih =>
      cases step <;> cases t <;> first | rfl | exact ih _

theorem modify_renumber {f : Term → Term} (same : ∀ t, f (t.renumber σ) = (f t).renumber σ)
    (p : Path) (t : Term) : (t.renumber σ).modify f p = (t.modify f p).renumber σ := by
  induction p generalizing t with
  | nil => exact same t
  | cons step p ih =>
      cases step <;> cases t <;> simp only [renumber, modify, ih]

theorem bindersNamed_renumber (σ : Int → Int) (names : List String) (t : Term) :
    (t.renumber σ).bindersNamed names = t.bindersNamed names := by
  induction t with
  | hole => rfl
  | var name id renamed => rfl
  | abs name id body ih => simp only [renumber, bindersNamed, ih]
  | app fn arg ihf iha => simp only [renumber, bindersNamed, ihf, iha]

/-! ## What compares numbers -/

section
variable (renumbering : Renumbering σ)
include renumbering

theorem renameBound_renumber (old id : Int) (name : String) (t : Term) :
    (t.renumber σ).renameBound (σ old) name (σ id) = (t.renameBound old name id).renumber σ := by
  induction t with
  | hole => rfl
  | var n i renamed =>
      simp only [renumber, renameBound, renumbering.eq_iff]
      split <;> rfl
  | abs n i body ih =>
      simp only [renumber, renameBound, renumbering.eq_iff, ih]
      split <;> rfl
  | app fn arg ihf iha => simp only [renumber, renameBound, ihf, iha]

theorem rename_renumber (name : String) (id : Int) (t : Term) :
    rename name (σ id) (t.renumber σ) = (rename name id t).renumber σ := by
  cases t with
  | abs n i body => simp only [renumber, rename, renameBound_renumber renumbering]
  | _ => rfl

theorem substitute_renumber (id : Int) (arg t : Term) :
    substitute (σ id) (arg.renumber σ) (t.renumber σ) = (substitute id arg t).renumber σ := by
  induction t with
  | hole => rfl
  | var n i renamed =>
      simp only [renumber, substitute, renumbering.eq_iff]
      split <;> rfl
  | abs n i body ih =>
      simp only [renumber, substitute, renumbering.eq_iff, ih]
      split <;> rfl
  | app fn arg' ihf iha => simp only [renumber, substitute, ihf, iha]

theorem isTripleSelfApplication_renumber (t : Term) :
    (t.renumber σ).isTripleSelfApplication = t.isTripleSelfApplication := by
  have same : ∀ i j : Int, (σ i == σ j) = (i == j) := by
    intro i j
    rw [Bool.eq_iff_iff, beq_iff_eq, beq_iff_eq, renumbering.eq_iff]
  cases t with
  | hole => rfl
  | var name id renamed => rfl
  | app fn arg => rfl
  | abs name id body =>
      cases body with
      | hole => rfl
      | var name id renamed => rfl
      | abs name id body => rfl
      | app fn c =>
          cases fn with
          | hole => rfl
          | var name id renamed => rfl
          | abs name id body => rfl
          | app a b =>
              cases a <;> cases b <;> cases c <;>
                simp only [renumber, isTripleSelfApplication, same]

theorem isNonTerminating_renumber (t : Term) :
    (t.renumber σ).isNonTerminating = t.isNonTerminating := by
  cases t with
  | app fn arg =>
      simp only [renumber, isNonTerminating, isTripleSelfApplication_renumber renumbering]
  | _ => rfl

end

end Term

end UntypedLambda
