import UntypedLambda.Proofs.Parser.Bindings
import UntypedLambda.Proofs.Session.Changes

/-! # Definitions as statements

A name can be bound by the operation for it, and by a line `name = term`.  Both read the same
terms, number them alike and leave the same definitions and the same table.  Only the guard
against a literal loop makes a difference: the operation refuses such a term, the line binds it.

Main statement: `define_exec`. -/
set_option autoImplicit false

namespace UntypedLambda.Session

/-! ## One of the two -/

theorem SameState.read (s : Session) (source : String) : SameState (s.read source).2 s := by
  unfold Session.read
  dsimp only [reportAll]
  split <;> exact ⟨rfl, rfl, rfl, rfl⟩

theorem SameState.bind {a b : Session} (same : SameState a b) (name : String) (t : Term) :
    SameState (a.bind name t) (b.bind name t) := by
  obtain ⟨log, next, rfl⟩ := same.exists_eq
  exact ⟨rfl, rfl, rfl, rfl⟩

/-- Without the log, which reading has no use for. -/
theorem define_eq (s : Session) (name source : String) :
    ∃ s' : Session, SameState s' s ∧ s'.nextId = (s.read source).2.nextId ∧
    s.define name source =
      match (s.read source).1 with
      | .error e => (.error (.during ("define " ++ name) (.parse e)), s')
      | .ok t => (.ok (), s'.bind name t) := by
  let log := s.log.setSource source
  have result := read_logged s log source
  have number := nextId_read { s with log := log } source
  have same := SameState.read { s with log := log } source
  have begun : SameState { s with log := log } s := ⟨rfl, rfl, rfl, rfl⟩
  refine ⟨(Session.read { s with log := log } source).2, same.trans begun, ?_, ?_⟩
  · rw [number, nextId_read]
  · rw [← result]
    unfold define
    dsimp only
    generalize Session.read { s with log := log } source = found
    obtain ⟨read, s'⟩ := found
    cases read <;> rfl

/-! ## Both -/

/-- How a definition ends, made by name and by a line: both bind the name, neither does, or only
the line does. -/
inductive DefinitionEnds (s : Session) (name : String) (byName : Except Error Unit × Session)
    (byLine : List Reply × Session) : Prop where
  | both (t : Term) (guarded : t.isNonTerminating = false) (result : byName.1 = .ok ())
      (reply : byLine.1 = [⟨some (.binding name t), .output (name ++ " = " ++ t.text)⟩])
      (state : SameState byName.2 (s.bind name t)) (state' : SameState byLine.2 (s.bind name t))
  | neither (e e' : ParseError) (other : e ≠ .nonTerminating)
      (result : byName.1 = .error (.during ("define " ++ name) (.parse e)))
      (reply : byLine.1 = [⟨none, .failure (.parse e')⟩])
      (state : SameState byName.2 s) (state' : SameState byLine.2 s.countError)
  | onlyLine (t : Term) (loop : t.isNonTerminating = true)
      (result : byName.1 = .error (.during ("define " ++ name) (.parse .nonTerminating)))
      (reply : byLine.1 = [⟨some (.binding name t), .output (name ++ " = " ++ t.text)⟩])
      (state : SameState byName.2 s) (state' : SameState byLine.2 (s.bind name t))

/-- The two ways give out the same numbers.  Both bind the name to the same term, or both fail
and bind nothing, except that a literal loop is refused by name and bound by a line. -/
theorem define_exec (s : Session) {name source : String} (identifier : IsIdentifier name)
    (one : '\n' ∉ source.toList) :
    (s.exec (name ++ " = " ++ source)).2.nextId = (s.define name source).2.nextId ∧
      DefinitionEnds s name (s.define name source) (s.exec (name ++ " = " ++ source)) := by
  obtain ⟨number, more, last, reads⟩ := Parser.next_binding_scan identifier one s.nextId
  obtain ⟨a, sameA, numberA, defined⟩ := define_eq s name source
  obtain ⟨b, sameB, executed⟩ := exec_single s more last
  rw [read_eq] at defined
  rw [nextId_read, ← number] at numberA
  rw [defined, executed]
  constructor
  · dsimp only
    rw [← numberA]
    split <;> rfl
  · rcases reads with ⟨t, line, alone⟩ | ⟨e, e', line, alone, other⟩
    · obtain ⟨options, bindings, equivalences, stats⟩ := sameB.bind name t
      rw [line, alone]
      cases loops : t.isNonTerminating with
      | true => exact .onlyLine t loops rfl rfl sameA ⟨options, bindings, equivalences, stats⟩
      | false =>
          exact .both t loops rfl rfl (sameA.bind name t) ⟨options, bindings, equivalences, stats⟩
    · obtain ⟨options, bindings, equivalences, stats⟩ := sameB
      have counted : b.countError.stats = s.countError.stats := by
        rw [countError, countError, stats]
      rw [line, alone]
      exact .neither e' e other rfl rfl sameA ⟨options, bindings, equivalences, counted⟩

/-- A term with a character in it that starts no token, and a comment. -/
def commented : String := "\\x. % x  # the same"

theorem define_exec_commented :
    IsIdentifier "w" ∧ '\n' ∉ commented.toList ∧ (Token.scan commented).errors.length = 1 ∧
      ((new {}).exec ("w" ++ " = " ++ commented)).2.nextId =
        ((new {}).define "w" commented).2.nextId ∧
      DefinitionEnds (new {}) "w" ((new {}).define "w" commented)
        ((new {}).exec ("w" ++ " = " ++ commented)) :=
  ⟨by decide, by decide, by decide +kernel, define_exec (new {}) (by decide) (by decide)⟩

theorem read_loop (s : Session) :
    (s.read "(\\x. x x x) (\\x. x x x)").1 = .error .nonTerminating := by
  rw [read_eq, scan_loop]
  simp [Parser.parseTerm, Parser.skipNewlines, Parser.atEnd, Parser.peek, Reading.start,
    Reading.run, Reading.step, Reading.close, Reading.finish, Reading.whole, Reading.number,
    Reading.wrap, Reading.resolve, Reading.Frame.binders, Term.applied, Term.isNonTerminating,
    Term.isTripleSelfApplication]

/-- A literal loop: the operation fails, and the line binds the name. -/
theorem define_refuses_loop :
    Reachable (new {}) ∧ IsIdentifier "w" ∧ '\n' ∉ ("(\\x. x x x) (\\x. x x x)").toList ∧
      (∃ e, ((new {}).define "w" "(\\x. x x x) (\\x. x x x)").1 = .error e) ∧
      ∃ t text, ((new {}).exec ("w" ++ " = " ++ "(\\x. x x x) (\\x. x x x)")).1 =
        [⟨some (.binding "w" t), .output text⟩] := by
  have identifier : IsIdentifier "w" := by decide
  have one : '\n' ∉ ("(\\x. x x x) (\\x. x x x)").toList := by decide
  have loop := read_loop (new {})
  obtain ⟨a, _, _, defined⟩ := define_eq (new {}) "w" "(\\x. x x x) (\\x. x x x)"
  obtain ⟨_, more, last, reads⟩ := Parser.next_binding_scan identifier one (new {}).nextId
  obtain ⟨b, _, executed⟩ := exec_single (new {}) more last
  rw [loop] at defined
  rw [read_eq] at loop
  refine ⟨.new {}, identifier, one, ⟨_, congrArg Prod.fst defined⟩, ?_⟩
  rcases reads with ⟨t, line, _⟩ | ⟨e, e', _, alone, other⟩
  · rw [executed, line]
    exact ⟨t, _, rfl⟩
  · exact absurd (Except.error.inj (alone.symm.trans loop)) other

end UntypedLambda.Session
