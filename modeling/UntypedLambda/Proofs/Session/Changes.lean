import Mathlib.Logic.Relation
import UntypedLambda.Proofs.Parser.Provenance
import UntypedLambda.Proofs.Session.Lines

/-! # What an operation can change

Reading, evaluating and recording leave definitions and equivalences as they are.  What changes
them is to bind a name to a term that was just read, and to take a bound name away.  Every
operation is a chain of such changes, so what they all keep holds in every session that can come
about.

Main statements: `changes_execNext`, `Reachable.changes`. -/
set_option autoImplicit false

namespace UntypedLambda.Session

open Relation

theorem lookup_bind (s : Session) (name : String) (t : Term) (x : String) :
    (s.bind name t).lookup x = if name = x then some t else s.lookup x := by
  have inserted : (s.bind name t).bindings = s.bindings.insert name t := rfl
  rw [lookup, inserted, Std.TreeMap.getElem?_insert, lookup]
  simp

theorem lookup_unbind (s : Session) (name x : String) :
    (s.unbind name).lookup x = if name = x then none else s.lookup x := by
  have erased : (s.unbind name).bindings = s.bindings.erase name := rfl
  rw [lookup, erased, Std.TreeMap.getElem?_erase, lookup]
  simp

theorem lookup_eq_of_bindings {s s' : Session} (bindings : s'.bindings = s.bindings)
    (x : String) : s'.lookup x = s.lookup x := by
  rw [lookup, bindings, lookup]

/-- One change, and the name whose definition it touches. -/
inductive Change : Option String → Session → Session → Prop where
  | keep {s s' : Session} (bindings : s'.bindings = s.bindings)
      (equivalences : s'.equivalences = s.equivalences) (numbers : s.nextId ≤ s'.nextId) :
      Change none s s'
  | bind {s s' : Session} (bindings : s'.bindings = s.bindings)
      (equivalences : s'.equivalences = s.equivalences) (name : String) {t : Term}
      (read : t.Read s.nextId s'.nextId) : Change (some name) s (s'.bind name t)
  | unbind {s : Session} {name : String} (bound : s.bindings.contains name = true) :
      Change (some name) s (s.unbind name)

/-- Any number of changes, one after the other. -/
abbrev Changes : Session → Session → Prop := ReflTransGen fun s s' => ∃ touched, Change touched s s'

theorem changes_keep {s s' : Session} (bindings : s'.bindings = s.bindings)
    (equivalences : s'.equivalences = s.equivalences) (numbers : s.nextId ≤ s'.nextId) :
    Changes s s' :=
  .single ⟨none, .keep bindings equivalences numbers⟩

theorem changes_bind {s s' : Session} (bindings : s'.bindings = s.bindings)
    (equivalences : s'.equivalences = s.equivalences) (name : String) {t : Term}
    (read : t.Read s.nextId s'.nextId) : Changes s (s'.bind name t) :=
  .single ⟨some name, .bind bindings equivalences name read⟩

/-! ## What leaves the equivalences alone -/

theorem equivalences_fail (s : Session) (e : Error) :
    (s.fail e).2.equivalences = s.equivalences := by
  unfold fail
  dsimp only
  split <;> rfl

theorem equivalences_conclude (s : Session) (t : Term) :
    (s.conclude t).equivalences = s.equivalences := by
  unfold conclude
  dsimp only
  split <;> rfl

theorem equivalences_reduce (s : Session) (t : Term) :
    (s.reduce t).2.equivalences = s.equivalences := by
  unfold reduce
  dsimp only
  split
  · rw [equivalences_conclude]
  · rw [equivalences_fail]

theorem equivalences_evaluateTerm (s : Session) (t : Term) :
    (s.evaluateTerm t).session.equivalences = s.equivalences := by
  unfold evaluateTerm
  dsimp only
  split
  · rw [equivalences_reduce]
  · rw [equivalences_fail]

theorem equivalences_read (s : Session) (source : String) :
    (s.read source).2.equivalences = s.equivalences := by
  unfold read
  dsimp only
  split <;> rfl

theorem changes_evaluateTerm (s : Session) (t : Term) : Changes s (s.evaluateTerm t).session := by
  have untouched : Untouched s (s.evaluateTerm t).session :=
    Untouched.evaluateTerm ⟨rfl, rfl, rfl⟩ t
  exact changes_keep untouched.bindings (equivalences_evaluateTerm s t)
    (Int.le_of_eq untouched.nextId.symm)

/-! ## Reading -/

theorem le_nextId_read (s : Session) (source : String) : s.nextId ≤ (s.read source).2.nextId := by
  rw [nextId_read]
  exact (Parser.numbering_parseTerm ⟨(Token.scan source).tokens, s.nextId⟩).first_le_last

theorem changes_read (s : Session) (source : String) : Changes s (s.read source).2 :=
  changes_keep (read_keeps s source).2 (equivalences_read s source) (le_nextId_read s source)

theorem read_logged (s : Session) (log : Log) (source : String) :
    (Session.read { s with log := log } source).1 = (s.read source).1 := by
  rw [read_eq, read_eq]

theorem read_of_read {s : Session} {source : String} {t : Term}
    (success : (s.read source).1 = .ok t) : t.Read s.nextId (s.read source).2.nextId := by
  rw [read_eq] at success
  rw [nextId_read]
  exact @Parser.read_parseTerm ⟨(Token.scan source).tokens, s.nextId⟩
    (Parser.identifiers_scan source) t success

/-! ## Operations -/

theorem changes_command (s : Session) (c : Command) : Changes s (s.command c).2 := by
  unfold command
  split
  · exact .refl
  · exact .refl
  · rename_i name
    split
    · exact .refl
    · split
      · rename_i bound
        exact .single ⟨some name, .unbind bound⟩
      · exact .refl
  · exact .refl

/-- A text that can be read makes a definition. -/
theorem define_of_read {s : Session} {source : String} {t : Term}
    (success : (s.read source).1 = .ok t) (name : String) :
    ∃ s' : Session, s'.options = s.options ∧ s'.bindings = s.bindings ∧
      s'.equivalences = s.equivalences ∧ t.Read s.nextId s'.nextId ∧
      (s.define name source).2 = s'.bind name t := by
  have read : (Session.read { s with log := s.log.setSource source } source).1 = .ok t :=
    (read_logged s _ source).trans success
  have keeps := read_keeps { s with log := s.log.setSource source } source
  have equivalences := equivalences_read { s with log := s.log.setSource source } source
  have known := read_of_read read
  unfold define
  dsimp only
  split
  · rename_i failed
    rw [failed] at read
    cases read
  · rename_i u s' found
    rw [found] at read keeps equivalences known
    cases read
    exact ⟨s', keeps.1, keeps.2, equivalences, known, rfl⟩

theorem change_define {s : Session} {source : String} {t : Term}
    (success : (s.read source).1 = .ok t) (name : String) :
    Change (some name) s (s.define name source).2 := by
  obtain ⟨s', _, bindings, equivalences, known, defined⟩ := define_of_read success name
  rw [defined]
  exact .bind bindings equivalences name known

theorem changes_define (s : Session) (name source : String) :
    Changes s (s.define name source).2 := by
  cases result : (s.read source).1 with
  | ok t => exact .single ⟨some name, change_define result name⟩
  | error e =>
      have failed :
          (Session.read { s with log := s.log.setSource source } source).1 = .error e :=
        (read_logged s _ source).trans result
      have keeps := changes_read { s with log := s.log.setSource source } source
      have begun : Changes s { s with log := s.log.setSource source } :=
        changes_keep rfl rfl (Int.le_refl _)
      unfold define
      dsimp only
      split
      · rename_i e' s' read
        rw [read] at keeps
        exact begun.trans keeps
      · rename_i t s' read
        rw [read] at failed
        cases failed

theorem changes_evaluate (s : Session) (input : String) : Changes s (s.evaluate input).2 := by
  unfold evaluate
  dsimp only
  generalize (s.log.clear.setSource input).add .input _ = log
  have begun : Changes s { s with log := log } := changes_keep rfl rfl (Int.le_refl _)
  have after := begun.trans (changes_read { s with log := log } input)
  split
  · rename_i e s' read
    rw [read] at after
    exact after.trans (changes_keep rfl rfl (Int.le_refl _))
  · rename_i t s' read
    rw [read] at after
    exact after.trans (changes_evaluateTerm s' t)

/-! ## Statements

While statements are executed the next number is with the parser. -/

theorem changes_execStatement {s : Session} {st : Statement} {before after : Int}
    (numbers : before ≤ after) (read : ∀ t, st.terms = [t] → t.Read before after) :
    Changes { s with nextId := before } { (s.execStatement st).2 with nextId := after } := by
  cases st with
  | term t =>
      have untouched : Untouched s (s.evaluateTerm t).session :=
        Untouched.evaluateTerm ⟨rfl, rfl, rfl⟩ t
      exact changes_keep untouched.bindings (equivalences_evaluateTerm s t) numbers
  | binding name t =>
      have bound : Changes { s with nextId := before } ({ s with nextId := after }.bind name t) :=
        @changes_bind { s with nextId := before } { s with nextId := after } rfl rfl name t
          (read t rfl)
      exact bound.trans (changes_keep rfl rfl (Int.le_refl _))
  | command c =>
      have begun : Changes { s with nextId := before } { s with nextId := after } :=
        changes_keep rfl rfl numbers
      have same := @SameState.command { s with nextId := after } s ⟨rfl, rfl, rfl, rfl⟩ c
      have done := begun.trans (changes_command { s with nextId := after } c)
      have number := nextId_command { s with nextId := after } c
      exact done.trans (changes_keep same.2.bindings.symm same.2.equivalences.symm
        (Int.le_of_eq number))

theorem changes_execNext {s : Session} {p : Parser} (identifiers : Parser.Identifiers p.tokens) :
    Changes { s with nextId := p.nextId }
      { (s.execNext p.next.1).2 with nextId := p.next.2.nextId } := by
  have numbers : p.nextId ≤ p.next.2.nextId := (Parser.numbering_next p).first_le_last
  cases found : p.next.1 with
  | error e => exact changes_keep rfl rfl numbers
  | ok st =>
      cases st with
      | none => exact changes_keep rfl rfl numbers
      | some st =>
          exact changes_execStatement numbers fun t only => Parser.read_next identifiers found only

theorem changes_execAll {s : Session} {p : Parser} (identifiers : Parser.Identifiers p.tokens) :
    Changes { s with nextId := p.nextId } (s.execAll p).2 := by
  induction s, p using Session.execAll.induct with
  | case1 s p atLast =>
      rw [execAll_of_done atLast]
  | case2 s p atLast progress reply s' executed _ _ _ ih =>
      have more : p.done = false := Bool.eq_false_iff.mpr atLast
      have one := @changes_execNext s p identifiers
      rw [execAll_of_next more]
      rw [executed] at one ⊢
      exact one.trans (ih (identifiers.suffix p.next_suffix))

theorem changes_exec (s : Session) (source : String) : Changes s (s.exec source).2 := by
  obtain ⟨log, same⟩ := exec_eq s source
  rw [same]
  have begun : Changes s { s with log := log } := changes_keep rfl rfl (Int.le_refl _)
  have executed := @changes_execAll { s with log := log } ⟨(Token.scan source).tokens, s.nextId⟩
    (Parser.identifiers_scan source)
  exact begun.trans executed

theorem Reachable.changes {s : Session} (reachable : Reachable s) :
    ∃ options, Changes (Session.new options) s := by
  induction reachable with
  | new options => exact ⟨options, .refl⟩
  | define _ name source ih =>
      obtain ⟨options, before⟩ := ih
      exact ⟨options, before.trans (changes_define _ name source)⟩
  | exec _ source ih =>
      obtain ⟨options, before⟩ := ih
      exact ⟨options, before.trans (changes_exec _ source)⟩
  | command _ c ih =>
      obtain ⟨options, before⟩ := ih
      exact ⟨options, before.trans (changes_command _ c)⟩
  | setOptions _ changed ih =>
      obtain ⟨options, before⟩ := ih
      exact ⟨options, before.trans (changes_keep rfl rfl (Int.le_refl _))⟩
  | evaluate _ input ih =>
      obtain ⟨options, before⟩ := ih
      exact ⟨options, before.trans (changes_evaluate _ input)⟩

/-- What holds at the start and is kept by every change holds of every session. -/
theorem Reachable.invariant {P : Session → Prop} (start : ∀ options, P (Session.new options))
    (step : ∀ touched s s', Change touched s s' → P s → P s') {s : Session}
    (reachable : Reachable s) : P s := by
  obtain ⟨options, changes⟩ := reachable.changes
  clear reachable
  induction changes with
  | refl => exact start options
  | tail _ change ih =>
      obtain ⟨touched, change⟩ := change
      exact step touched _ _ change ih

/-! ## A definition before what it refers to -/

theorem read_a (s : Session) : (s.read "a").1 = .ok (.var "a" 0 false) := by
  have tokens : (Token.scan "a").tokens =
      [⟨.ident, "a", 1, 1, 1⟩, ⟨.newline, "<newline>", 1, 2, 0⟩, ⟨.eof, "", 1, 2, 0⟩] := by
    decide +kernel
  rw [read_eq, tokens]
  rfl

theorem read_identity (s : Session) :
    (s.read "\\x. x").1 = .ok (.abs "x" s.nextId (.var "x" s.nextId false)) := by
  have tokens : (Token.scan "\\x. x").tokens =
      [⟨.lambda, "\\", 1, 1, 1⟩, ⟨.ident, "x", 1, 2, 1⟩, ⟨.dot, ".", 1, 3, 1⟩,
        ⟨.ident, "x", 1, 5, 1⟩, ⟨.newline, "<newline>", 1, 6, 0⟩, ⟨.eof, "", 1, 6, 0⟩] := by
    decide +kernel
  have parsed : (Parser.mk (Token.scan "\\x. x").tokens s.nextId).parseTerm.1 =
      .ok (.abs "x" (s.nextId + ((0 : Nat) : Int))
        (.var "x" (s.nextId + ((0 : Nat) : Int)) false)) := by
    rw [tokens]
    rfl
  rw [read_eq, parsed]
  simp

/-- The session after `b = a`. -/
def withReference (options : Options) : Session := ((new options).define "b" "a").2

/-- The session after `b = a` and then `a = λx. x`. -/
def withLateDefinition (options : Options) : Session :=
  ((withReference options).define "a" "\\x. x").2

theorem reachable_withLateDefinition (options : Options) :
    Reachable (withLateDefinition options) :=
  .define (.define (.new options) "b" "a") "a" "\\x. x"

theorem withReference_eq (options : Options) : ∃ s : Session, s.options = options ∧
    s.lookup "a" = none ∧ s.bindings = (new options).bindings ∧
    withReference options = s.bind "b" (.var "a" 0 false) := by
  obtain ⟨s, sameOptions, bindings, _, _, defined⟩ := define_of_read (read_a (new options)) "b"
  refine ⟨s, sameOptions.trans (options_new options), ?_, bindings, defined⟩
  rw [lookup_eq_of_bindings bindings, lookup_new options (by decide)]

theorem withLateDefinition_eq (options : Options) : ∃ (s : Session) (id : Int),
    s.options = options ∧ s.bindings = (withReference options).bindings ∧
    s.equivalences = (withReference options).equivalences ∧
    withLateDefinition options = s.bind "a" (.abs "x" id (.var "x" id false)) := by
  obtain ⟨s, sameOptions, bindings, equivalences, _, defined⟩ :=
    define_of_read (read_identity (withReference options)) "a"
  obtain ⟨s', sameOptions', _, _, defined'⟩ := withReference_eq options
  refine ⟨s, _, ?_, bindings, equivalences, defined⟩
  rw [sameOptions, defined']
  exact sameOptions'

/-- What the names mean in the end, and what stays without a meaning. -/
theorem lookup_withLateDefinition (options : Options) : ∃ id,
    (withLateDefinition options).lookup "a" = some (.abs "x" id (.var "x" id false)) ∧
    (withLateDefinition options).lookup "b" = some (.var "a" 0 false) ∧
    (withLateDefinition options).lookup "x" = none := by
  obtain ⟨late, id, _, bindings, _, defined⟩ := withLateDefinition_eq options
  obtain ⟨early, _, _, bindings', defined'⟩ := withReference_eq options
  rw [defined]
  refine ⟨id, ?_, ?_, ?_⟩
  · rw [lookup_bind, if_pos rfl]
  · rw [lookup_bind, if_neg (by decide), lookup_eq_of_bindings bindings, defined', lookup_bind,
      if_pos rfl]
  · rw [lookup_bind, if_neg (by decide), lookup_eq_of_bindings bindings, defined', lookup_bind,
      if_neg (by decide), lookup_eq_of_bindings bindings', lookup_new options (by decide)]

theorem options_withLateDefinition (options : Options) :
    (withLateDefinition options).options = options := by
  obtain ⟨s, _, same, _, _, defined⟩ := withLateDefinition_eq options
  rw [defined]
  exact same

/-- A name is expanded to what it means in the end. -/
theorem expansion_identity {definitions : String → Option Term} {id : Int}
    (found : definitions "a" = some (.abs "x" id (.var "x" id false)))
    (missing : definitions "x" = none) (room depth : Nat) :
    (Expansion.visit definitions (room + 3) depth (.var "a" 0 false)).result =
      .ok (.abs "x" id (.var "x" id false)) := by
  simp [Expansion.visit, found, missing, Expansion.Run.map, Expansion.Run.inside,
    Expansion.Run.done, Except.map]

end UntypedLambda.Session
