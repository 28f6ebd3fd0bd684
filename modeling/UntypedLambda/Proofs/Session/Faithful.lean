import UntypedLambda.Proofs.Expansion.Splicing
import UntypedLambda.Proofs.Reduction.FreeNames
import UntypedLambda.Proofs.Session.Reachable

/-! # What the text of an answer says

The text of an answer shows every bound variable below its own binder.  It is wrong about a free
variable exactly if that stands below a binder of its name.  A term that is read has no such
variable and a reduction adds none; a definition may bring one when it is put below a binder. -/
set_option autoImplicit false

namespace UntypedLambda

namespace Term

/-- No free variable stands below a binder of its name. -/
def CaptureFree (t : Term) : Prop := t.EveryVar Uncaptured []

theorem faithful_iff_captureFree {t : Term} (bound : t.EveryVar BoundFaithful []) :
    t.Faithful ↔ t.CaptureFree := by
  rw [faithful_iff]
  exact ⟨fun both => both.2, fun free => ⟨bound, free⟩⟩

theorem Spliced.admitted {ledger : Ledger} {t : Term} (spliced : t.Spliced ledger []) :
    Reduction.Admitted {} t where
  numbers := Int.le_refl 0
  numbered := spliced.numbered
  known := fun _ member => Or.inl (spliced.isWord member)

theorem Spliced.marked {ledger : Ledger} {scope : List Label} {t : Term}
    (spliced : t.Spliced ledger scope) : t.AllVars (Reduction.Marked 0) := by
  induction spliced with
  | var => exact fun mark => nomatch mark
  | abs _ _ ih => exact ih
  | app _ _ ihf iha => exact ⟨ihf, iha⟩

end Term

namespace Session

open Term

/-! ## The stages of an evaluation -/

theorem reduce_eq_ok {s : Session} {t u : Term} : (s.reduce t).1 = .ok u ↔
    (Reduction.run s.options.reduction {} t).result = .ok u := by
  unfold reduce Reduction.Run.toExcept
  cases result : (Reduction.run s.options.reduction {} t).result <;>
    simp [result]

theorem evaluateTerm_eq_ok {s : Session} {t u : Term} : (s.evaluateTerm t).result = .ok u ↔
    ∃ e, (Expansion.run s.lookup s.options.bound t).result = .ok e ∧
      (Reduction.run s.options.reduction {} e).result = .ok u := by
  unfold evaluateTerm Expansion.Run.toExcept
  cases result : (Expansion.run s.lookup s.options.bound t).result with
  | error stop => simp [result]
  | ok e => simp [result, reduce_eq_ok]

/-- An evaluation that succeeds has read a term, expanded it and reduced it. -/
theorem evaluate_eq_ok {s : Session} {input : String} {u : Term} :
    (s.evaluate input).1 = .ok u ↔ ∃ t e, (s.read input).1 = .ok t ∧
      (Expansion.run s.lookup s.options.bound t).result = .ok e ∧
      (Reduction.run s.options.reduction {} e).result = .ok u := by
  unfold evaluate
  dsimp only
  generalize (s.log.clear.setSource input).add .input _ = log
  have same : (s.read input).1 = (Session.read { s with log := log } input).1 := by
    rw [read_eq, read_eq]
  obtain ⟨options, bindings⟩ := read_keeps { s with log := log } input
  rw [same]
  split
  · rename_i e s' read
    simp [read]
  · rename_i t s' read
    rw [read] at options bindings
    have options : s'.options = s.options := options
    have lookup : s'.lookup = s.lookup := by
      funext name
      rw [Session.lookup, bindings, Session.lookup]
    simp [read, evaluateTerm_eq_ok, options, lookup]

/-! ## Answers -/

theorem spliced_of_evaluate {s : Session} {ledger : Ledger} (sound : Sound ledger s)
    {input : String} {t e : Term} (read : (s.read input).1 = .ok t)
    (expanded : (Expansion.run s.lookup s.options.bound t).result = .ok e) :
    ∃ ledger', t.Resolved ledger' [] ∧ e.Spliced ledger' [] := by
  obtain ⟨ledger', grown, _, resolved⟩ := sound.read input
  have term := resolved t read
  have definitions := sound.defines.extend grown
  exact ⟨ledger', term, Expansion.spliced_of_visit definitions term.spliced expanded⟩

/-- Every name in a definition is bound there or has a definition itself. -/
def ClosedDefinitions (s : Session) : Prop :=
  ∀ name d, s.lookup name = some d → d.AllVars (Expansion.Defined s.lookup)

/-- An answer shows bound variables right, and it shows a free variable right exactly if no
binder of its name is around it.  That is so if free variables are renamed, if all definitions
are closed, and whenever it was so before the reduction. -/
theorem evaluate_faithful_iff {s : Session} (reachable : Reachable s) {input : String}
    {u : Term} (success : (s.evaluate input).1 = .ok u) :
    (u.Faithful ↔ CaptureFree u) ∧ (s.options.renameFree = true → u.Faithful) ∧
      (ClosedDefinitions s → u.Faithful) ∧
      ∃ t e, (s.read input).1 = .ok t ∧ t.Faithful ∧
        (Expansion.run s.lookup s.options.bound t).result = .ok e ∧
        (e.Faithful ↔ CaptureFree e) ∧ (CaptureFree e → u.Faithful) := by
  obtain ⟨ledger, sound⟩ := reachable.sound
  obtain ⟨t, e, read, expanded, reduced⟩ := evaluate_eq_ok.mp success
  obtain ⟨ledger', resolved, spliced⟩ := spliced_of_evaluate sound read expanded
  have admitted := spliced.admitted
  have derivation := Reduction.derivation_of_visit reduced
  have boundBefore := spliced.boundFaithful (by simp)
  have bound := derivation.everyVar boundFaithful_stable admitted (by simp) boundBefore
  have answer := faithful_iff_captureFree bound
  have expansion := faithful_iff_captureFree boundBefore
  have fromExpansion : CaptureFree e → u.Faithful :=
    fun free => derivation.faithful admitted (expansion.mpr free)
  refine ⟨answer, ?_, ?_, t, e, read, resolved.faithful, expanded, expansion, fromExpansion⟩
  · intro on
    apply answer.mpr
    exact Reduction.uncaptured_of_visit on admitted.numbers admitted.numbered
      (fun l member => (spliced.entered_binder member).word) spliced.marked reduced
  · intro closed
    apply fromExpansion
    exact Expansion.uncaptured_of_visit closed (resolved.uncaptured (by simp)) expanded

/-! ## A definition with a free variable -/

theorem read_x (s : Session) : (s.read "x").1 = .ok (.var "x" 0 false) := by
  have tokens : (Token.scan "x").tokens =
      [⟨.ident, "x", 1, 1, 1⟩, ⟨.newline, "<newline>", 1, 2, 0⟩, ⟨.eof, "", 1, 2, 0⟩] := by
    decide +kernel
  rw [read_eq, tokens]
  rfl

theorem read_below_x (s : Session) :
    (s.read "\\x. k").1 = .ok (.abs "x" s.nextId (.var "k" 0 false)) := by
  have tokens : (Token.scan "\\x. k").tokens =
      [⟨.lambda, "\\", 1, 1, 1⟩, ⟨.ident, "x", 1, 2, 1⟩, ⟨.dot, ".", 1, 3, 1⟩,
        ⟨.ident, "k", 1, 5, 1⟩, ⟨.newline, "<newline>", 1, 6, 0⟩, ⟨.eof, "", 1, 6, 0⟩] := by
    decide +kernel
  have parsed : (Parser.mk (Token.scan "\\x. k").tokens s.nextId).parseTerm.1 =
      .ok (.abs "x" (s.nextId + ((0 : Nat) : Int)) (.var "k" 0 false)) := by
    rw [tokens]
    rfl
  rw [read_eq, parsed]
  simp

/-- The session after `k = x`. -/
def withOpenDefinition (options : Options) : Session := ((new options).define "k" "x").2

theorem reachable_withOpenDefinition (options : Options) :
    Reachable (withOpenDefinition options) :=
  .define (.new options) "k" "x"

theorem define_x (s : Session) : (s.define "k" "x").2.options = s.options ∧
    (s.define "k" "x").2.bindings = s.bindings.insert "k" (.var "x" 0 false) := by
  have read := read_x { s with log := s.log.setSource "x" }
  obtain ⟨options, bindings⟩ := read_keeps { s with log := s.log.setSource "x" } "x"
  unfold define
  dsimp only
  split
  · rename_i failed
    rw [failed] at read
    cases read
  · rename_i t s' found
    rw [found] at read options bindings
    cases read
    refine ⟨options, ?_⟩
    rw [← bindings]
    rfl

theorem lookup_withOpenDefinition (options : Options) (name : String) :
    (withOpenDefinition options).lookup name =
      if compare "k" name = .eq then some (.var "x" 0 false) else (new options).lookup name := by
  rw [withOpenDefinition, lookup, (define_x (new options)).2, Std.TreeMap.getElem?_insert, lookup]

theorem expansion_below_x {definitions : String → Option Term}
    (found : definitions "k" = some (.var "x" 0 false)) (missing : definitions "x" = none)
    {bound : Nat} (enough : 2 ≤ bound) (id : Int) :
    (Expansion.run definitions bound (.abs "x" id (.var "k" 0 false))).result =
      .ok (.abs "x" id (.var "x" 0 false)) := by
  obtain ⟨room, rfl⟩ := Nat.exists_eq_add_of_le' enough
  simp [Expansion.run, Expansion.visit, found, missing, Expansion.Run.map, Expansion.Run.inside,
    Expansion.Run.done, Except.map]

theorem evaluate_below_x {options : Options} {u : Term} (enough : 2 ≤ options.bound)
    (reduced : (Reduction.run options.reduction {}
      (.abs "x" (withOpenDefinition options).nextId (.var "x" 0 false))).result = .ok u) :
    ((withOpenDefinition options).evaluate "\\x. k").1 = .ok u := by
  have same : (withOpenDefinition options).options = options :=
    (define_x (new options)).1.trans (options_new options)
  have found : (withOpenDefinition options).lookup "k" = some (.var "x" 0 false) := by
    rw [lookup_withOpenDefinition, if_pos (by decide)]
  have missing : (withOpenDefinition options).lookup "x" = none := by
    rw [lookup_withOpenDefinition, if_neg (by decide), lookup_new options (by decide)]
  apply evaluate_eq_ok.mpr
  rw [same]
  exact ⟨_, _, read_below_x _, expansion_below_x found missing enough _, reduced⟩

/-- The answer `λx. x` to `λx. k`, where the second `x` is free. -/
theorem evaluate_captures :
    Reachable (withOpenDefinition {}) ∧
      ∃ u, ((withOpenDefinition {}).evaluate "\\x. k").1 = .ok u ∧ u.text = "(λx. x)" ∧
        ¬ u.Faithful := by
  refine ⟨reachable_withOpenDefinition {}, _, evaluate_below_x (by decide) rfl, rfl, ?_⟩
  intro faithful
  have free := (faithful_iff.mp faithful).2
  exact free rfl ("x", _) List.mem_cons_self rfl

/-- With free variables renamed the answer is right. -/
theorem evaluate_faithful_renamed :
    Reachable (withOpenDefinition { renameFree := true }) ∧
      ∃ u, ((withOpenDefinition { renameFree := true }).evaluate "\\x. k").1 = .ok u ∧
        u.text = "(λx. X`0)" ∧ u.Faithful := by
  have reachable := reachable_withOpenDefinition { renameFree := true }
  have success : ((withOpenDefinition { renameFree := true }).evaluate "\\x. k").1 =
      .ok (.abs "x" _ (.var "X`0" 0 true)) := evaluate_below_x (by decide) rfl
  have on : (withOpenDefinition { renameFree := true }).options.renameFree = true := by
    rw [withOpenDefinition, (define_x _).1, options_new]
  exact ⟨reachable, _, success, rfl, (evaluate_faithful_iff reachable success).2.1 on⟩

end Session

end UntypedLambda
