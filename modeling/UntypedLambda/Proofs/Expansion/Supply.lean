import UntypedLambda.Proofs.Expansion.Branches
import UntypedLambda.Proofs.Parser.Lifetime

/-! # Terms that come from a parser

A parser returns terms over its life, and such terms are expanded with definitions that it has
returned as well.  In whatever comes about in this way numbers determine names, since the parser
uses no number twice, and no variable is marked as renamed.

Main statements: `Parser.Supplies.numbered`, `Parser.Supplies.unmarked`. -/
set_option autoImplicit false

namespace UntypedLambda

/-- A variable that has not been renamed. -/
def Term.Unmarked (_ : String) (_ : Int) (renamed : Bool) : Prop := renamed = false

theorem Named.unmarked_resolve (e : Named) (scope : List Label) (next : Int) :
    (e.resolve scope next).AllVars Term.Unmarked := by
  induction e generalizing scope next with
  | var name => rfl
  | abs name body ih => exact ih _ _
  | app fn arg ihf iha => exact ⟨ihf _ _, iha _ _⟩

/-- What holds of the variables of a term and of all definitions holds of the expansion. -/
theorem Expansion.Expands.allVars {P : String → Int → Bool → Prop}
    {definitions : String → Option Term}
    (each : ∀ name d, definitions name = some d → d.AllVars P) {t u : Term}
    (expands : Expands definitions t u) (all : t.AllVars P) : u.AllVars P := by
  induction expands with
  | keep => exact all
  | unfold found _ ih => exact ih (each _ _ found)
  | abs _ ih => exact ih all
  | app _ _ ihf iha => exact ⟨ihf all.1, iha all.2⟩

namespace Parser

/-- All terms that a parser returns over its life. -/
def returned (startId : Int) (calls : List Call) : List Term :=
  ((new startId).history .empty calls).flatMap Returned.terms

/-- The parser returns the term, or returns what the term is an expansion of, together with all
definitions. -/
inductive Supplies (startId : Int) (calls : List Call) : Term → Prop where
  | read {t : Term} (member : t ∈ returned startId calls) : Supplies startId calls t
  | expanded {definitions : String → Option Term} {bound : Nat} {t u : Term}
      (member : t ∈ returned startId calls)
      (known : ∀ name d, definitions name = some d → d ∈ returned startId calls)
      (success : (Expansion.run definitions bound t).result = .ok u) : Supplies startId calls u

variable {startId : Int} {calls : List Call} {t u : Term}

/-! ## Terms that are returned -/

theorem exists_resolve_of_returned (member : t ∈ returned startId calls) :
    ∃ (e : Named) (n : Int), t = e.resolve [] n ∧ 1 ≤ n := by
  have all := numbering_history .empty (new startId) calls
  obtain ⟨e, n, same, low, _⟩ := all.exists_resolve member
  exact ⟨e, n, same, Int.le_trans (Int.le_max_right _ _) low⟩

theorem mem_binderLabels_of_returned (member : t ∈ returned startId calls) {l : Label}
    (inLabels : l ∈ t.labels) : l.2 = 0 ∨ l ∈ t.binderLabels := by
  obtain ⟨e, n, rfl, _⟩ := exists_resolve_of_returned member
  rcases Named.mem_binderLabels_resolve inLabels with zero | outside | inside
  · exact Or.inl zero
  · cases outside
  · exact Or.inr inside

theorem binder_pos_of_returned (member : t ∈ returned startId calls) {l : Label}
    (binder : l ∈ t.binderLabels) : 1 ≤ l.2 := by
  obtain ⟨e, n, rfl, least⟩ := exists_resolve_of_returned member
  have number : l.2 ∈ (e.resolve [] n).binderNumbers := List.mem_map_of_mem binder
  rw [Named.binderNumbers_resolve, List.mem_map] at number
  obtain ⟨i, _, same⟩ := number
  omega

/-- Over the life of a parser a number is used for one binder, and so for one name. -/
theorem agree_returned (first : t ∈ returned startId calls) (second : u ∈ returned startId calls) :
    Term.Agree t.labels u.labels := by
  intro l inFirst m inSecond same bound
  have numbers := (numbering_history .empty (new startId) calls).pairwise_lt.imp Int.ne_of_lt
  have nodup : (((returned startId calls).flatMap Term.binderLabels).map Prod.snd).Nodup := by
    rw [List.map_flatMap]
    exact numbers
  have left := (mem_binderLabels_of_returned first inFirst).resolve_left bound
  have right := (mem_binderLabels_of_returned second inSecond).resolve_left (same ▸ bound)
  have one : l = m := List.inj_on_of_nodup_map nodup (List.mem_flatMap.mpr ⟨t, first, left⟩)
    (List.mem_flatMap.mpr ⟨u, second, right⟩) same
  rw [one]

/-! ## Terms that are supplied -/

namespace Supplies

theorem exists_returned {withVars : Bool} (supplied : Supplies startId calls t) {l : Label}
    (member : l ∈ t.labelsOf withVars) :
    ∃ d ∈ returned startId calls, l ∈ d.labelsOf withVars := by
  cases supplied with
  | read inside => exact ⟨t, inside, member⟩
  | @expanded _ _ t _ inside known success =>
      have expands := Expansion.expands_of_visit success
      rcases expands.labelsOf member with own | ⟨name, d, _, found, other⟩
      · exact ⟨t, inside, own⟩
      · exact ⟨d, known name d found, other⟩

theorem holeFree (supplied : Supplies startId calls t) : t.HoleFree := by
  cases supplied with
  | read member =>
      obtain ⟨e, n, rfl, _⟩ := exists_resolve_of_returned member
      exact e.holeFree_resolve [] n
  | expanded _ _ success => exact (Expansion.expands_of_visit success).holeFree

theorem unmarked (supplied : Supplies startId calls t) : t.AllVars Term.Unmarked := by
  have returned : ∀ {t : Term}, t ∈ returned startId calls → t.AllVars Term.Unmarked := by
    intro t member
    obtain ⟨e, n, rfl, _⟩ := exists_resolve_of_returned member
    exact e.unmarked_resolve [] n
  cases supplied with
  | read member => exact returned member
  | expanded member known success =>
      exact (Expansion.expands_of_visit success).allVars
        (fun name d found => returned (known name d found)) (returned member)

theorem numbered (supplied : Supplies startId calls t) : t.Numbered 0 where
  holeFree := supplied.holeFree
  binder_ne_zero := by
    intro l member
    obtain ⟨d, inside, binder⟩ := supplied.exists_returned member
    have := binder_pos_of_returned inside binder
    omega
  consistent := by
    intro l inFirst m inSecond
    obtain ⟨d, first, left⟩ := supplied.exists_returned inFirst
    obtain ⟨d', second, right⟩ := supplied.exists_returned inSecond
    exact agree_returned first second l left m right
  low_le := by
    intro l member
    obtain ⟨d, inside, label⟩ := supplied.exists_returned member
    rcases mem_binderLabels_of_returned inside label with zero | binder
    · exact Int.le_of_eq zero.symm
    · have := binder_pos_of_returned inside binder
      omega

end Supplies

end Parser

end UntypedLambda
