import UntypedLambda.Proofs.Expansion.Dependency
import UntypedLambda.Proofs.Term.Named

/-! # Numbers on a branch

Copies of one definition share their numbers, and so do the names that stand for one and the
same term.  Still, no number comes twice on a way from the root of an expansion to a leaf: the
second binder would be in a copy of the same definition, inside the first copy, and the
definition would depend on itself.

Main statement: `Expands.unrepeated`. -/
set_option autoImplicit false

namespace UntypedLambda

namespace Term

/-- The numbers of the binders on each way from the root to a leaf. -/
def branches : Term → List (List Int)
  | hole => [[]]
  | var _ _ _ => [[]]
  | abs _ id body => body.branches.map (id :: ·)
  | app fn arg => fn.branches ++ arg.branches

/-- No number comes twice on a branch. -/
def Unrepeated (t : Term) : Prop := ∀ branch ∈ t.branches, branch.Nodup

instance (t : Term) : Decidable t.Unrepeated :=
  inferInstanceAs (Decidable (∀ branch ∈ t.branches, branch.Nodup))

theorem binderNumbers_abs (name : String) (id : Int) (body : Term) :
    (abs name id body).binderNumbers = id :: body.binderNumbers := by
  simp [binderNumbers, labelsOf]

theorem binderNumbers_app (fn arg : Term) :
    (app fn arg).binderNumbers = fn.binderNumbers ++ arg.binderNumbers := by
  simp [binderNumbers, labelsOf]

theorem mem_binderNumbers_of_mem_branch {t : Term} {branch : List Int} {id : Int}
    (isBranch : branch ∈ t.branches) (member : id ∈ branch) : id ∈ t.binderNumbers := by
  induction t generalizing branch with
  | hole =>
      rw [List.mem_singleton.mp isBranch] at member
      cases member
  | var name i renamed =>
      rw [List.mem_singleton.mp isBranch] at member
      cases member
  | abs name i body ih =>
      obtain ⟨rest, isRest, rfl⟩ := List.mem_map.mp isBranch
      rw [binderNumbers_abs]
      rcases List.mem_cons.mp member with rfl | member
      · exact List.mem_cons_self
      · exact List.mem_cons_of_mem _ (ih isRest member)
  | app fn arg ihf iha =>
      rw [binderNumbers_app]
      rcases List.mem_append.mp isBranch with left | right
      · exact List.mem_append_left _ (ihf left member)
      · exact List.mem_append_right _ (iha right member)

theorem Unrepeated.abs {name : String} {id : Int} {body : Term} (unrepeated : body.Unrepeated)
    (other : id ∉ body.binderNumbers) : (Term.abs name id body).Unrepeated := by
  intro branch isBranch
  obtain ⟨rest, isRest, rfl⟩ := List.mem_map.mp isBranch
  rw [List.nodup_cons]
  exact ⟨fun member => other (mem_binderNumbers_of_mem_branch isRest member),
    unrepeated rest isRest⟩

theorem Unrepeated.app {fn arg : Term} (left : fn.Unrepeated) (right : arg.Unrepeated) :
    (Term.app fn arg).Unrepeated := by
  intro branch isBranch
  exact (List.mem_append.mp isBranch).elim (left branch) (right branch)

end Term

namespace Expansion

open Relation Term

variable {definitions : String → Option Term} {t u : Term}

/-- A label of an expansion is one of the term's own or of a definition that it depends on. -/
theorem Expands.labelsOf {withVars : Bool} (expands : Expands definitions t u) {l : Label}
    (member : l ∈ u.labelsOf withVars) : l ∈ t.labelsOf withVars ∨
      ∃ name d, Needs definitions t name ∧ definitions name = some d ∧
        l ∈ d.labelsOf withVars := by
  induction expands with
  | keep => exact Or.inl member
  | @unfold name renamed d u found _ ih =>
      have own : Needs definitions (.var name 0 renamed) name := Needs.var_iff.mpr ⟨rfl, .refl⟩
      rcases ih member with inside | ⟨name', d', needs, found', inside⟩
      · exact Or.inr ⟨name, d, own, found, inside⟩
      · exact Or.inr ⟨name', d', Needs.of_definition found needs, found', inside⟩
  | abs _ ih =>
      simp only [Needs.abs_iff]
      rcases List.mem_cons.mp member with rfl | member
      · exact Or.inl List.mem_cons_self
      · exact (ih member).imp_left (List.mem_cons_of_mem _)
  | app _ _ ihf iha =>
      simp only [Needs.app_iff]
      rcases List.mem_append.mp member with member | member
      · rcases ihf member with inside | ⟨name, d, needs, found, inside⟩
        · exact Or.inl (List.mem_append_left _ inside)
        · exact Or.inr ⟨name, d, Or.inl needs, found, inside⟩
      · rcases iha member with inside | ⟨name, d, needs, found, inside⟩
        · exact Or.inl (List.mem_append_right _ inside)
        · exact Or.inr ⟨name, d, Or.inr needs, found, inside⟩

theorem Expands.binderNumbers (expands : Expands definitions t u) {id : Int}
    (member : id ∈ u.binderNumbers) : id ∈ t.binderNumbers ∨
      ∃ name d, Needs definitions t name ∧ definitions name = some d ∧
        id ∈ d.binderNumbers := by
  obtain ⟨l, inLabels, rfl⟩ := List.mem_map.mp member
  rcases expands.labelsOf inLabels with inside | ⟨name, d, needs, found, inside⟩
  · exact Or.inl (List.mem_map_of_mem inside)
  · exact Or.inr ⟨name, d, needs, found, List.mem_map_of_mem inside⟩

/-- A definition that the term depends on is not the term itself, so they share no number. -/
theorem Acyclic.disjoint (acyclic : Acyclic definitions t)
    (apart : ∀ name d, definitions name = some d →
      t = d ∨ t.binderNumbers.Disjoint d.binderNumbers)
    {name : String} {d : Term} (needs : Needs definitions t name)
    (found : definitions name = some d) : t.binderNumbers.Disjoint d.binderNumbers := by
  rcases apart name d found with rfl | disjoint
  · exact absurd (transGen_of_needs found needs) (acyclic name needs)
  · exact disjoint

/-- Definitions are the same or have no number in common, and none uses a number twice. -/
structure Stock (definitions : String → Option Term) : Prop where
  nodup : ∀ {name d}, definitions name = some d → d.binderNumbers.Nodup
  apart : ∀ {name name' d d'}, definitions name = some d → definitions name' = some d' →
    d = d' ∨ d.binderNumbers.Disjoint d'.binderNumbers

theorem Expands.unrepeated (stock : Stock definitions) (expands : Expands definitions t u)
    (nodup : t.binderNumbers.Nodup)
    (disjoint : ∀ {name d}, Needs definitions t name → definitions name = some d →
      t.binderNumbers.Disjoint d.binderNumbers) : u.Unrepeated := by
  induction expands with
  | keep =>
      intro branch isBranch
      rw [List.mem_singleton.mp isBranch]
      exact List.nodup_nil
  | unfold found below ih =>
      exact ih (stock.nodup found)
        (below.acyclic.disjoint fun _ _ found' => stock.apart found found')
  | @abs name id body body' inside ih =>
      simp only [binderNumbers_abs, List.nodup_cons, List.disjoint_cons_left, Needs.abs_iff]
        at nodup disjoint
      have below := ih nodup.2 fun needs found => (disjoint needs found).2
      apply below.abs
      intro member
      rcases inside.binderNumbers member with own | ⟨name', d, needs, found, inDefinition⟩
      · exact nodup.1 own
      · exact (disjoint needs found).1 inDefinition
  | app _ _ ihf iha =>
      simp only [binderNumbers_app, List.nodup_append', List.disjoint_append_left,
        Needs.app_iff] at nodup disjoint
      have left := ihf nodup.1 fun needs found => (disjoint (Or.inl needs) found).1
      have right := iha nodup.2.1 fun needs found => (disjoint (Or.inr needs) found).2
      exact left.app right

/-- Two copies may stand side by side, but not one inside the other. -/
example : (app (abs "x" 1 (var "x" 1 false)) (abs "x" 1 (var "x" 1 false))).Unrepeated ∧
    ¬ (abs "x" 1 (abs "x" 1 (var "x" 1 false))).Unrepeated := by
  decide

end Expansion

end UntypedLambda
