import Mathlib.Data.Set.Function
import UntypedLambda.Proofs.Reduction.FreeRenaming

/-! # One name for every occurrence

New names go to occurrences of free variables and not to the variables: a variable that occurs
twice gets two names.  The result is that of the term in which all occurrences of free variables
are told apart.  It is a renaming of the result without new names as long as no two occurrences of
one variable are left in it.

Main statements: `run_renames_occurrences`, `run_separates_variable`. -/
set_option autoImplicit false

namespace UntypedLambda.Reduction

theorem binderLabels_distinguish (t : Term) (k : Nat) :
    (distinguish t k).binderLabels = t.binderLabels := by
  induction t generalizing k with
  | hole => rfl
  | var name id renamed => by_cases free : id = 0 <;> simp [distinguish, free, Term.labelsOf]
  | abs name id body ih => simp only [distinguish, Term.labelsOf, ih]
  | app fn arg ihf iha => simp only [distinguish, Term.labelsOf, ihf, iha]

/-- Only free variables have other labels than before. -/
theorem mem_labels_of_distinguish {t : Term} {k : Nat} {l : Label}
    (member : l ∈ (distinguish t k).labels) : l.2 = 0 ∨ l ∈ t.labels := by
  induction t generalizing k with
  | hole => exact Or.inr member
  | var name id renamed =>
      by_cases free : id = 0
      · rw [distinguish, if_pos free] at member
        rw [List.mem_singleton.mp member]
        exact Or.inl rfl
      · rw [distinguish, if_neg free] at member
        exact Or.inr member
  | abs name id body ih =>
      rcases List.mem_cons.mp member with rfl | inside
      · exact Or.inr List.mem_cons_self
      · exact (ih inside).imp_right (List.mem_cons_of_mem _)
  | app fn arg ihf iha =>
      rcases List.mem_append.mp member with left | right
      · exact (ihf left).imp_right (List.mem_append_left _)
      · exact (iha right).imp_right (List.mem_append_right _)

theorem holeFree_distinguish {t : Term} (whole : t.HoleFree) (k : Nat) :
    (distinguish t k).HoleFree := by
  induction t generalizing k with
  | hole => exact whole
  | var name id renamed =>
      rw [distinguish]
      split <;> trivial
  | abs name id body ih => exact ih whole k
  | app fn arg ihf iha => exact ⟨ihf whole.1 k, iha whole.2 _⟩

theorem numbered_distinguish {t : Term} {low : Int} (numbers : low ≤ 0) (numbered : t.Numbered low)
    (k : Nat) : (distinguish t k).Numbered low where
  holeFree := holeFree_distinguish numbered.holeFree k
  binder_ne_zero := by
    rw [binderLabels_distinguish]
    exact numbered.binder_ne_zero
  consistent := by
    intro l inFirst m inSecond same bound
    have left := (mem_labels_of_distinguish inFirst).resolve_left bound
    have right := (mem_labels_of_distinguish inSecond).resolve_left (same ▸ bound)
    exact numbered.consistent l left m right same bound
  low_le := by
    intro l member
    rcases mem_labels_of_distinguish member with free | inside
    · rwa [free]
    · exact numbered.low_le l inside

/-- The result is the one without new names of the term whose occurrences are told apart. -/
theorem exists_run_distinguish {t u : Term} {bound : Nat} (numbers : Numbers {} t)
    (unmarked : t.AllVars Term.Unmarked) (success : (run ⟨true, bound⟩ {} t).result = .ok u) :
    ∃ w, (run ⟨false, bound⟩ {} (distinguish t 0)).result = .ok w ∧
      w.idReading [] = u.idReading [] := by
  have apart : Numbers {} (distinguish t 0) :=
    ⟨numbers.nonpos, numbered_distinguish numbers.nonpos numbers.numbered 0⟩
  have off : (run ⟨false, bound⟩ {} (distinguish t 0)).reading [] =
      ((distinguish t 0).idReading []).normalize (bound + 1) 0 :=
    reading_visit ⟨false, bound⟩ (bound + 1) 0 _ {} [] apart (.of_off rfl)
  have on : (run ⟨true, bound⟩ {} t).reading [] =
      ((distinguish t 0).idReading []).normalize (bound + 1) 0 :=
    reading_visit_distinguish rfl numbers unmarked []
  have same := congrArg Prod.fst (off.trans on.symm)
  rw [Run.reading_of_ok success] at same
  exact Run.reading_eq_some.mp same

/-! ## Whether the result is only renamed -/

/-- No two occurrences of one variable are left in the result under their new names. -/
def Separate (names : List String) (u : Term) : Prop :=
  ∀ (i : Nat) (first : i < names.length) (j : Nat) (second : j < names.length),
    freeName i ∈ u.freeNames → freeName j ∈ u.freeNames → names[i] = names[j] → i = j

instance (names : List String) (u : Term) : Decidable (Separate names u) :=
  inferInstanceAs (Decidable (∀ (i : Nat) (first : i < names.length) (j : Nat)
    (second : j < names.length), freeName i ∈ u.freeNames → freeName j ∈ u.freeNames →
      names[i] = names[j] → i = j))

theorem injOn_restore_iff {names : List String} {u : Term}
    (drawn : ∀ name ∈ u.freeNames, ∃ k < names.length, name = freeName k) :
    Set.InjOn (restore names) {name | name ∈ u.freeNames} ↔ Separate names u := by
  constructor
  · intro injective i first j second left right same
    apply freeName_inj.mp
    apply injective left right
    rw [restore_freeName first, restore_freeName second, same]
  · intro separate x left y right same
    obtain ⟨i, first, rfl⟩ := drawn x left
    obtain ⟨j, second, rfl⟩ := drawn y right
    rw [restore_freeName first, restore_freeName second] at same
    rw [separate i first j second left right same]

/-- Occurrences of free variables are renamed one by one: each gets the next name, in the order in
which they stand, and the result is that of the term in which they are told apart in this way.
Putting the old names back gives the result without renaming, and that is an injective renaming
of it exactly if no two occurrences of one variable are left in it. -/
theorem run_renames_occurrences {startId : Int} {calls : List Parser.Call} {t u : Term}
    (supplied : Parser.Supplies startId calls t) {bound : Nat}
    (success : (run ⟨true, bound⟩ {} t).result = .ok u) :
    renamings (run ⟨true, bound⟩ {} t).events =
        t.freeNames.zipIdx.map (fun p => (p.1, freeName p.2)) ∧
      (∃ w, (run ⟨false, bound⟩ {} (distinguish t 0)).result = .ok w ∧
        w.idReading [] = u.idReading []) ∧
      ∃ v, (run ⟨false, bound⟩ {} t).result = .ok v ∧
        (u.mapFree (restore t.freeNames)).idReading [] = v.idReading [] ∧
        ((∃ σ : String → String, Set.InjOn σ {name | name ∈ u.freeNames} ∧
          (u.mapFree σ).idReading [] = v.idReading []) ↔ Separate t.freeNames u) := by
  have numbers : Numbers {} t := ⟨Int.le_refl 0, supplied.numbered⟩
  have told := (renamings_of_visit rfl numbers supplied.unmarked success).1
  have named := named_of_run numbers supplied.unmarked success
  obtain ⟨v, off, restored⟩ := exists_run_of_renamed numbers supplied.unmarked success
  refine ⟨told, exists_run_distinguish numbers supplied.unmarked success, v, off, restored, ?_⟩
  have drawn : ∀ name ∈ u.freeNames, ∃ k < t.freeNames.length, name = freeName k := by
    intro name member
    exact (named.mono fun _ _ _ both free => (both free).2).of_mem_freeNames member
  rw [← injOn_restore_iff drawn]
  constructor
  · rintro ⟨σ, injective, same⟩
    have agree : ∀ name ∈ u.freeNames, σ name = restore t.freeNames name := by
      rw [← Term.mapFree_idReading_eq_iff u [], ← Term.idReading_mapFree,
        ← Term.idReading_mapFree, same, restored]
    exact injective.congr agree
  · intro injective
    exact ⟨_, injective, restored⟩

/-- `(λx. λy. y) a a b`, which drops one of the two occurrences of `a`. -/
def dropping : Term :=
  .app (.app (.app (.abs "x" 1 (.abs "y" 2 (.var "y" 2 false))) (.var "a" 0 false))
    (.var "a" 0 false)) (.var "b" 0 false)

theorem run_renames_occurrences_dropping :
    Parser.Supplies 1 [.load (Token.scan "(\\x. \\y. y) a a b").tokens, .term] dropping ∧
      (run ⟨true, 5⟩ {} dropping).result =
        .ok (.app (.var (freeName 1) 0 true) (.var (freeName 2) 0 true)) ∧
      renamings (run ⟨true, 5⟩ {} dropping).events =
        [("a", freeName 0), ("a", freeName 1), ("b", freeName 2)] ∧
      ∃ v, (run ⟨false, 5⟩ {} dropping).result = .ok v ∧
        ∃ σ : String → String, Set.InjOn σ {name | name = freeName 1 ∨ name = freeName 2} ∧
          (Term.mapFree σ (.app (.var (freeName 1) 0 true) (.var (freeName 2) 0 true))).idReading
            [] = v.idReading [] := by
  have supplied : Parser.Supplies 1
      [.load (Token.scan "(\\x. \\y. y) a a b").tokens, .term] dropping :=
    .read (by decide +kernel)
  have success : (run ⟨true, 5⟩ {} dropping).result =
      .ok (.app (.var (freeName 1) 0 true) (.var (freeName 2) 0 true)) := rfl
  obtain ⟨told, _, v, off, _, renames⟩ := run_renames_occurrences supplied success
  have separate : Separate dropping.freeNames
      (.app (.var (freeName 1) 0 true) (.var (freeName 2) 0 true)) := by
    decide
  obtain ⟨σ, injective, same⟩ := renames.mpr separate
  refine ⟨supplied, success, told, v, off, σ, injective.mono ?_, same⟩
  rintro _ (rfl | rfl) <;> decide

/-- In `x x` one variable gets two names, and no renaming makes `x x` of the result. -/
theorem run_separates_variable :
    Term.app (.var "x" 0 false) (.var "x" 0 false) ∈
        Parser.returned 1 [.load (Token.scan "x x").tokens, .term] ∧
      freeName 0 ≠ freeName 1 ∧
      (run ⟨true, 1⟩ {} (.app (.var "x" 0 false) (.var "x" 0 false))).result =
        .ok (.app (.var (freeName 0) 0 true) (.var (freeName 1) 0 true)) ∧
      (run ⟨false, 1⟩ {} (.app (.var "x" 0 false) (.var "x" 0 false))).result =
        .ok (.app (.var "x" 0 false) (.var "x" 0 false)) ∧
      ¬ ∃ σ : String → String, Set.InjOn σ {freeName 0, freeName 1} ∧
        (Term.mapFree σ (.app (.var (freeName 0) 0 true) (.var (freeName 1) 0 true))).idReading
          [] = Term.idReading [] (.app (.var "x" 0 false) (.var "x" 0 false)) := by
  have apart : freeName 0 ≠ freeName 1 := fun same => Nat.zero_ne_one (freeName_inj.mp same)
  refine ⟨by decide +kernel, apart, rfl, rfl, ?_⟩
  rintro ⟨σ, injective, same⟩
  obtain ⟨left, right⟩ := Nameless.app.inj same
  have first : σ (freeName 0) = "x" := Constant.free.inj (Nameless.constant.inj left)
  have second : σ (freeName 1) = "x" := Constant.free.inj (Nameless.constant.inj right)
  exact apart (injective (Or.inl rfl) (Or.inr rfl) (first.trans second.symm))

end UntypedLambda.Reduction
