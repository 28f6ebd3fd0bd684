import UntypedLambda.Proofs.Bound
import UntypedLambda.Proofs.Parser.SingleTerm
import UntypedLambda.Proofs.Term.Fingerprint

/-! # The loop that is refused

The parser refuses the application of two abstractions that apply their variable to itself
twice.  Whatever names and numbers they have, these are the terms that are alike
`(λx. x x x) (λx. x x x)`.  A contraction of such a term puts the same application one level
further down, below one more argument, so that no bound lets a reduction of it end.

Main statements: `isLoop_iff_reading`, `Reduction.visit_loop_ne_ok` and `guard_exact`. -/
set_option autoImplicit false

namespace UntypedLambda

/-! ## Terms that are alike -/

namespace Term

/-- Only bound names and numbers differ. -/
def AlphaEquivalent (t u : Term) : Prop := t.idReading [] = u.idReading []

instance (t u : Term) : Decidable (AlphaEquivalent t u) :=
  inferInstanceAs (Decidable (t.idReading [] = u.idReading []))

/-- `λx. x x x`, with a name and a number for `x`. -/
def tripled (name : String) (id : Int) : Term :=
  abs name id (app (app (var name id false) (var name id false)) (var name id false))

/-- `(λx. x x x) (λx. x x x)`. -/
def loop : Term := app (tripled "x" 1) (tripled "x" 2)

end Term

open Nameless Term

def Nameless.tripled : Nameless := abs (app (app (bound 0) (bound 0)) (bound 0))

theorem Term.idReading_loop :
    loop.idReading [] = .app Nameless.tripled Nameless.tripled := by
  decide

namespace Named

theorem namePlace_eq_bound_zero {x name : String} :
    namePlace [x] name = .bound 0 ↔ name = x := by
  by_cases same : x = name
  · subst same
    simp [namePlace_cons_self]
  · simp [namePlace_cons_of_ne same, rename_succ_ne_bound_zero, Ne.symm same]

/-- Only a variable reads like a variable. -/
theorem reading_eq_bound_zero {e : Named} {x : String} :
    e.reading [x] = .bound 0 ↔ e = .var x := by
  cases e with
  | var name => rw [reading, namePlace_eq_bound_zero, var.injEq]
  | abs name body => simp [reading]
  | app fn arg => simp [reading]

theorem reading_eq_app {e : Named} {scope : List String} {n m : Nameless} :
    e.reading scope = .app n m ↔
      ∃ fn arg, e = .app fn arg ∧ fn.reading scope = n ∧ arg.reading scope = m := by
  cases e with
  | var name =>
      rcases namePlace_cases scope name with ⟨k, _, place⟩ | ⟨_, place⟩ <;> simp [reading, place]
  | abs name body => simp [reading]
  | app fn arg => simp [reading]

theorem reading_eq_abs {e : Named} {scope : List String} {n : Nameless} :
    e.reading scope = .abs n ↔
      ∃ x body, e = .abs x body ∧ body.reading (x :: scope) = n := by
  cases e with
  | var name =>
      rcases namePlace_cases scope name with ⟨k, _, place⟩ | ⟨_, place⟩ <;> simp [reading, place]
  | abs name body => simp [reading]
  | app fn arg => simp [reading]

theorem isTripleSelfApplication_iff_reading {e : Named} :
    e.isTripleSelfApplication = true ↔ e.reading [] = Nameless.tripled := by
  simp only [Nameless.tripled, reading_eq_abs, reading_eq_app, reading_eq_bound_zero]
  constructor
  · intro shape
    unfold isTripleSelfApplication at shape
    split at shape
    · simp only [Bool.and_eq_true, beq_iff_eq] at shape
      obtain ⟨⟨rfl, rfl⟩, rfl⟩ := shape
      exact ⟨_, _, rfl, _, _, rfl, ⟨_, _, rfl, rfl, rfl⟩, rfl⟩
    · cases shape
  · rintro ⟨x, _, rfl, _, _, rfl, ⟨_, _, rfl, rfl, rfl⟩, rfl⟩
    simp [isTripleSelfApplication]

/-- The shape that is looked for is that of one reading. -/
theorem isLoop_iff_reading {e : Named} :
    e.isLoop = true ↔ e.reading [] = .app Nameless.tripled Nameless.tripled := by
  rw [reading_eq_app]
  cases e with
  | var name => simp [isLoop]
  | abs name body => simp [isLoop]
  | app fn arg => simp [isLoop, isTripleSelfApplication_iff_reading]

theorem isNonTerminating_iff_alphaEquivalent {next : Int} (positive : 0 < next) (e : Named) :
    (e.resolve [] next).isNonTerminating = true ↔ (e.resolve [] next).AlphaEquivalent loop := by
  rw [isNonTerminating_resolve positive, isLoop_iff_reading, AlphaEquivalent, idReading_loop,
    idReading_resolve_nil e positive]

end Named

/-! ## Reductions of a loop -/

namespace Reduction

/-- Work that succeeds on a term in which there is nothing to do does nothing. -/
theorem Finished.visit_of_ok {o : Options} {enough : Nat} {t : Term}
    (finished : Finished o.renameFree enough t) {room depth : Nat} {u : Term} {c : Counters}
    (success : (visit o room depth t c).result = .ok u) :
    visit o room depth t c = .done t c := by
  rcases Nat.le_total enough room with le | le
  · exact (finished.mono le).visit_eq_done depth c
  · rw [← visit_eq_of_ok rfl le success depth]
    exact finished.visit_eq_done depth c

/-- An abstraction that applies its variable to itself twice. -/
inductive Tripled : Term → Prop where
  | mk (name : String) {id : Int} (isBinder : id ≠ 0) (x y z : String) (r s q : Bool) :
      Tripled (.abs name id (.app (.app (.var x id r) (.var y id s)) (.var z id q)))

namespace Tripled

variable {t u : Term}

theorem of_isTripleSelfApplication (shape : t.isTripleSelfApplication = true)
    (binders : ∀ l ∈ t.binderLabels, l.2 ≠ 0) : Tripled t := by
  unfold isTripleSelfApplication at shape
  split at shape
  · simp only [Bool.and_eq_true, beq_iff_eq] at shape
    obtain ⟨⟨rfl, rfl⟩, rfl⟩ := shape
    exact .mk _ (binders _ List.mem_cons_self) _ _ _ _ _ _
  · cases shape

/-- Nothing is free and no redex is in it. -/
theorem finished (tripled : Tripled t) (renameFree : Bool) : Finished renameFree 4 t := by
  cases tripled with
  | mk name isBinder x y z r s q =>
      have leaf : ∀ room x r, Finished renameFree (room + 1) (.var x _ r) :=
        fun _ _ _ => .var fun _ free => absurd free isBinder
      exact .abs (.app rfl (.app rfl (leaf 0 x r) (leaf 0 y s)) (leaf 1 z q))

theorem visit_of_ok {o : Options} (tripled : Tripled t) {room depth : Nat} {c : Counters}
    (success : (visit o room depth t c).result = .ok u) :
    visit o room depth t c = .done t c :=
  (tripled.finished o.renameFree).visit_of_ok success

end Tripled

/-- The body of such an abstraction has no binder to be renamed, and the argument takes all
places in it. -/
theorem contract_tripled (name : String) (id : Int) (x y z : String) (r s q : Bool) (arg : Term)
    (c : Counters) :
    (contract name id (.app (.app (.var x id r) (.var y id s)) (.var z id q)) arg c).result =
      .ok (.app (.app arg arg) arg) := by
  simp [contract, Term.bindersNamed, freshen, Run.done, Run.andThen, Term.substitute]

/-- A contraction leaves an application of the argument to itself, and that again is an
application of two such abstractions. -/
theorem visit_loop_ne_ok {o : Options} {fn arg : Term} (left : Tripled fn) (right : Tripled arg)
    (room depth : Nat) (c : Counters) (u : Term) :
    (visit o room depth (.app fn arg) c).result ≠ .ok u := by
  induction room using Nat.strongRecOn generalizing fn depth c u with
  | ind room ih =>
      intro success
      rcases room with _ | room
      · cases success
      simp only [visit_app, Run.andThen_eq_ok, Run.inside_eq_ok] at success
      obtain ⟨f, function, a, argument, rest⟩ := success
      rw [left.visit_of_ok function] at function
      rw [right.visit_of_ok argument] at argument
      cases function
      cases argument
      cases left with
      | mk name isBinder x y z r s q =>
          obtain ⟨v, contracted, reduced⟩ := Run.andThen_eq_ok.mp rest
          rw [contract_tripled] at contracted
          cases contracted
          rcases room with _ | room
          · cases reduced
          · simp only [visit_app, Run.andThen_eq_ok, Run.inside_eq_ok] at reduced
            obtain ⟨w, inner, _⟩ := reduced
            exact ih room (by omega) right _ _ w inner

theorem run_ne_ok_of_isNonTerminating {t : Term} (shape : t.isNonTerminating = true)
    (binders : ∀ l ∈ t.binderLabels, l.2 ≠ 0) (o : Options) (c : Counters) (u : Term) :
    (run o c t).result ≠ .ok u := by
  cases t with
  | app fn arg =>
      simp only [isNonTerminating, Bool.and_eq_true] at shape
      have left : Tripled fn := .of_isTripleSelfApplication shape.1 fun l member =>
        binders l (List.mem_append_left _ member)
      have right : Tripled arg := .of_isTripleSelfApplication shape.2 fun l member =>
        binders l (List.mem_append_right _ member)
      exact visit_loop_ne_ok left right _ _ _ _
  | _ => cases shape

end Reduction

/-! ## The guard -/

theorem Named.binder_ne_zero_resolve {next : Int} (positive : 0 < next) (e : Named) :
    ∀ l ∈ (e.resolve [] next).binderLabels, l.2 ≠ 0 := by
  intro l member
  have number : l.2 ∈ (e.resolve [] next).binderNumbers := List.mem_map_of_mem member
  rw [binderNumbers_resolve] at number
  obtain ⟨i, _, same⟩ := List.mem_map.mp number
  omega

namespace Parser

open Grammar

/-- The tokens of a term, with newlines around it and at least one behind, are those of one tree
only.  They are refused as a loop exactly if the tree is `(λx. x x x) (λx. x x x)` up to the choice
of bound names, and otherwise read as that tree.  Of a tree that is refused no reduction ends,
whatever the bound is, whether or not free variables are renamed and whatever the reducer has
done before: each stops for its depth. -/
theorem guard_exact (startId : Int) (calls : List Call) {before w after : List Token}
    {eof : Token} (isBefore : Newlines before) (isTerm : IsTerm w) (isAfter : Newlines after)
    (ended : after ≠ []) (isEof : eof.kind = .eof) :
    (∃! e, Reads w e) ∧ ∀ e, Reads w e →
      let p := ((Parser.new startId).after calls).load (before ++ w ++ after ++ [eof])
      let t := e.resolve [] p.nextId
      (p.parseTerm.1 = .error .nonTerminating ↔ t.AlphaEquivalent loop) ∧
      (p.parseTerm.1 = .ok t ↔ ¬ t.AlphaEquivalent loop) ∧
      (p.parseTerm.1 = .error .nonTerminating →
        ∀ (renameFree : Bool) (setting : Int) (c : Reduction.Counters), ∃ visited reached,
          (Reduction.run ⟨renameFree, Bound.ofSetting setting⟩ c t).toExcept =
            .error (.depth ⟨visited, Bound.ofSetting setting + 1, reached⟩)) := by
  refine ⟨reads_unique isTerm, fun e reads => ?_⟩
  intro p t
  obtain ⟨behind, canonical⟩ := canonical_of_reads reads
  have positive : 0 < p.nextId := one_le_nextId_after startId calls
  have all : before ++ w ++ after ++ [eof] = before ++ (w ++ (after ++ [eof])) := by simp
  have read : p.parseTerm.1 = if t.isNonTerminating then .error .nonTerminating else .ok t := by
    have parsed := parseTerm_of_canonical isBefore isAfter ended isEof canonical p.nextId
    rwa [← all] at parsed
  have refused := Named.isNonTerminating_iff_alphaEquivalent positive e
  have error : p.parseTerm.1 = .error .nonTerminating ↔ t.isNonTerminating = true := by
    rw [read]
    split <;> simp [*]
  have success : p.parseTerm.1 = .ok t ↔ ¬ t.isNonTerminating = true := by
    rw [read]
    split <;> simp [*]
  refine ⟨error.trans refused, success.trans (not_congr refused),
    fun failure renameFree setting c => ?_⟩
  have binders := Named.binder_ne_zero_resolve positive e
  have whole := e.holeFree_resolve [] p.nextId
  obtain ⟨stop, failed⟩ := Reduction.exists_depthError whole
    (Reduction.run_ne_ok_of_isNonTerminating (error.mp failure) binders
      ⟨renameFree, Bound.ofSetting setting⟩ c)
  obtain ⟨visited, reached, same⟩ := Reduction.depthError_of_run whole failed
  exact ⟨visited, reached, by rw [failed, same]⟩

/-- `(λy. y y y) λx. x x x`. -/
def loopTokens : List Token :=
  [⟨.lparen, "(", 1, 1, 1⟩, ⟨.lambda, "λ", 1, 2, 1⟩, ⟨.ident, "y", 1, 3, 1⟩, ⟨.dot, ".", 1, 4, 1⟩,
    ⟨.ident, "y", 1, 6, 1⟩, ⟨.ident, "y", 1, 8, 1⟩, ⟨.ident, "y", 1, 10, 1⟩,
    ⟨.rparen, ")", 1, 11, 1⟩, ⟨.lambda, "λ", 1, 13, 1⟩, ⟨.ident, "x", 1, 14, 1⟩,
    ⟨.dot, ".", 1, 15, 1⟩, ⟨.ident, "x", 1, 17, 1⟩, ⟨.ident, "x", 1, 19, 1⟩,
    ⟨.ident, "x", 1, 21, 1⟩]

theorem canonical_loopTokens : ∃ e behind, Canonical .term loopTokens e behind ∧
    e.resolve [] 7 = .app (Term.tripled "y" 7) (Term.tripled "x" 8) := by
  have success : ((Reading.start 7).run (loopTokens ++ [⟨.newline, "\n", 1, 22, 1⟩])).result =
      .ok (.app (Term.tripled "y" 7) (Term.tripled "x" 8)) := rfl
  obtain ⟨w, e, behind, split, canonical, tree, _⟩ := Reading.canonical_of_run success
  have same : loopTokens = w := List.append_cancel_right split
  exact ⟨e, behind, same ▸ canonical, tree.symm⟩

/-- Other names and no parentheses around the argument make no difference. -/
theorem guard_exact_renamed :
    ((Parser.new 7).load ([] ++ loopTokens ++ [⟨.newline, "\n", 1, 22, 1⟩] ++
        [⟨.eof, "", 2, 1, 0⟩])).parseTerm.1 = .error .nonTerminating ∧
      ∃ visited reached, (Reduction.run ⟨true, 9⟩ {}
        (.app (Term.tripled "y" 7) (Term.tripled "x" 8))).toExcept =
          .error (.depth ⟨visited, 10, reached⟩) := by
  obtain ⟨e, behind, canonical, tree⟩ := canonical_loopTokens
  obtain ⟨_, guarded⟩ := @guard_exact 7 [] [] loopTokens [⟨.newline, "\n", 1, 22, 1⟩]
    ⟨.eof, "", 2, 1, 0⟩ (by simp [Newlines]) ⟨e, behind, canonical.derives⟩ (by simp [Newlines])
    (by simp) rfl
  obtain ⟨exactly, _, justified⟩ := guarded e (Canonical.reads canonical)
  have refused := exactly.mpr (tree ▸ by decide)
  exact ⟨refused, tree ▸ justified refused true 9 {}⟩

end Parser

end UntypedLambda
