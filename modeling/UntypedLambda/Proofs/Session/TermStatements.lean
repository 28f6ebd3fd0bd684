import UntypedLambda.Proofs.Log
import UntypedLambda.Proofs.Parser.Statements
import UntypedLambda.Proofs.Session.Changes

/-! # Terms as statements

A text that is a single term can be evaluated, and it can be executed as a text with that one
statement.  Both do the same, down to what is written to the log.

Main statement: `exec_term`. -/
set_option autoImplicit false

namespace UntypedLambda.Session

/-! ## What is written -/

section
variable {front : List Entry.Content}

open Log (Continues)

theorem log_fail {a b : Session} (continues : Continues front a.log b.log) (e : Error) :
    Continues front (a.fail e).2.log (b.fail e).2.log := by
  have reported : Continues front (a.countError.log.reportError e)
      (b.countError.log.reportError e) := continues.reportError e
  unfold fail
  dsimp only
  split <;> exact reported

theorem log_conclude {a b : Session} (same : SameState a b)
    (continues : Continues front a.log b.log) (t : Term) :
    Continues front (a.conclude t).log (b.conclude t).log := by
  obtain ⟨log, next, rfl⟩ := same.exists_eq
  have said : Continues front (a.log.add .result t.text) (log.add .result t.text) :=
    continues.add .result t.text "" 0 0
  have equal : equivalents { a with log := log, nextId := next } t = a.equivalents t := rfl
  unfold conclude
  dsimp only
  rw [equal]
  split
  · exact said.add .equivalence _ "" _ _
  · exact said

theorem log_reduce {a b : Session} (same : SameState a b)
    (continues : Continues front a.log b.log) (t : Term) :
    Continues front (a.reduce t).2.log (b.reduce t).2.log := by
  obtain ⟨log, next, rfl⟩ := same.exists_eq
  unfold reduce
  dsimp only
  have said := continues.addReduction (Reduction.run a.options.reduction {} t)
  generalize Reduction.run a.options.reduction {} t = run at said
  cases run.toExcept with
  | ok u =>
      refine log_conclude ?_ said u
      exact ⟨rfl, rfl, rfl, rfl⟩
  | error e => exact log_fail said e

theorem log_evaluateTerm {a b : Session} (same : SameState a b)
    (continues : Continues front a.log b.log) (t : Term) :
    Continues front (a.evaluateTerm t).session.log (b.evaluateTerm t).session.log := by
  obtain ⟨log, next, rfl⟩ := same.exists_eq
  have lookup : lookup { a with log := log, nextId := next } = a.lookup := rfl
  unfold evaluateTerm
  dsimp only
  rw [lookup]
  have said := (continues.add .parsed t.text "" 0 0).addExpansion
    (Expansion.run a.lookup a.options.bound t)
  generalize Expansion.run a.lookup a.options.bound t = run at said
  cases run.toExcept with
  | ok u =>
      refine log_reduce ?_ said u
      exact ⟨rfl, rfl, rfl, rfl⟩
  | error e => exact log_fail said e

end

/-! ## Both ways to a term -/

/-- The input as it is shown back, without the newlines at its end. -/
def echo (input : String) : String :=
  String.ofList (input.toList.reverse.dropWhile (· == '\n')).reverse

def Answer.ofResult : Except Error Term → Answer
  | .ok t => .value t
  | .error e => .failure e

/-- After scanning: the characters that start no token have been reported. -/
def scanned (s : Session) (source : String) (log : Log) : Session :=
  { s with log := log }.reportAll (Token.scan source).errors

section
variable {s : Session} {source : String} {t : Term}

theorem read_eq_of_read (read : (s.read source).1 = .ok t) (log : Log) :
    Session.read { s with log := log } source =
      (.ok t, { s.scanned source log with nextId := (s.read source).2.nextId }) := by
  rw [nextId_read]
  rw [read_eq] at read
  unfold Session.read
  dsimp only [scanned, reportAll]
  generalize Parser.parseTerm ⟨(Token.scan source).tokens, s.nextId⟩ = found at read
  obtain ⟨result, p⟩ := found
  obtain rfl : result = .ok t := read
  rfl

theorem evaluate_of_read (read : (s.read source).1 = .ok t) :
    let log := (s.log.clear.setSource source).add .input (echo source)
    let done := evaluateTerm
      { s.scanned source log with nextId := (s.read source).2.nextId } t
    s.evaluate source = (done.result, done.session) := by
  unfold evaluate
  dsimp only
  rw [read_eq_of_read read]
  rfl

theorem exec_of_read (read : (s.read source).1 = .ok t) :
    let done := (s.scanned source (s.log.clear.setSource source)).evaluateTerm t
    s.exec source = ([⟨some (.term done.expanded), .ofResult done.result⟩],
      { done.session with nextId := (s.read source).2.nextId }) := by
  rw [nextId_read]
  rw [read_eq] at read
  obtain ⟨more, found, last, number⟩ := Parser.next_of_parseTerm read
  have begun : s.exec source =
      (s.scanned source (s.log.clear.setSource source)).execAll
        ⟨(Token.scan source).tokens, s.nextId⟩ := rfl
  have statement : ∀ s' : Session, s'.execNext (.ok (some (.term t))) =
      (some ⟨some (.term (s'.evaluateTerm t).expanded), .ofResult (s'.evaluateTerm t).result⟩,
        (s'.evaluateTerm t).session) := by
    intro s'
    simp only [execNext, execStatement]
    cases (s'.evaluateTerm t).result <;> rfl
  rw [begun, execAll_of_next more, found, statement, execAll_of_done last, number]
  rfl

/-- A text that is a single term is executed as it is evaluated: there is one reply, with the
same outcome, the session is the same but for its log, and an unlimited log has the same
contents behind the echo of the input. -/
theorem exec_term (s : Session) {source : String} {t : Term}
    (read : (s.read source).1 = .ok t) :
    (s.exec source).1 = [⟨some (.term ((Expansion.run s.lookup s.options.bound t).inPlace t)),
        .ofResult (s.evaluate source).1⟩] ∧
      SameState (s.exec source).2 (s.evaluate source).2 ∧
      (s.exec source).2.nextId = (s.evaluate source).2.nextId ∧
      (s.log.capacity = 0 → (s.evaluate source).2.log.contents =
        ⟨.input, echo source, ""⟩ :: (s.exec source).2.log.contents) := by
  have executed := exec_of_read read
  have evaluated := evaluate_of_read read
  dsimp only at executed evaluated
  let log := s.log.clear.setSource source
  let a := s.scanned source log
  let b : Session := { s.scanned source (log.add .input (echo source)) with
    nextId := (s.read source).2.nextId }
  have same : SameState a b := ⟨rfl, rfl, rfl, rfl⟩
  obtain ⟨result, expanded, after⟩ := same.evaluateTerm t
  rw [executed, evaluated]
  refine ⟨?_, after.renumber _, ?_, ?_⟩
  · dsimp only
    rw [result]
    rfl
  · exact (Untouched.evaluateTerm (a := b) ⟨rfl, rfl, rfl⟩ t).nextId.symm
  · intro unlimited
    have fresh : log.capacity = 0 := unlimited
    have begun : Log.Continues [⟨.input, echo source, ""⟩] log (log.add .input (echo source)) :=
      ⟨rfl, rfl, ⟨fresh, fresh⟩, Log.contents_add fresh .input (echo source) "" 0⟩
    have reported : Log.Continues [⟨.input, echo source, ""⟩] a.log b.log :=
      begun.foldl (fun said e => said.reportError (.lex e)) (Token.scan source).errors
    exact (log_evaluateTerm same reported t).contents

/-- Its options set no limit to the log. -/
def unlimited : Session := (new {}).setOptions { traceCapacity := 0 }

/-- A term between blank lines, with a character in it that starts no token and a comment. -/
def spaced : String := "\n\\x. % x  # the same\n\n"

theorem read_spaced (s : Session) :
    (s.read spaced).1 =
      .ok (.abs "x" (s.nextId + (0 : Nat)) (.var "x" (s.nextId + (0 : Nat)) false)) := by
  have tokens : (Token.scan spaced).tokens =
      [⟨.newline, "\n", 1, 1, 1⟩, ⟨.lambda, "\\", 2, 1, 1⟩, ⟨.ident, "x", 2, 2, 1⟩,
        ⟨.dot, ".", 2, 3, 1⟩, ⟨.ident, "x", 2, 7, 1⟩, ⟨.newline, "\n", 2, 20, 1⟩,
        ⟨.newline, "\n", 3, 1, 1⟩, ⟨.eof, "", 4, 1, 0⟩] := by
    decide +kernel
  rw [read_eq, tokens]
  rfl

theorem exec_term_spaced :
    (∃ t, (unlimited.read spaced).1 = .ok t) ∧ (Token.scan spaced).errors.length = 1 ∧
      unlimited.log.capacity = 0 ∧ (unlimited.exec spaced).1.length = 1 ∧
      SameState (unlimited.exec spaced).2 (unlimited.evaluate spaced).2 ∧
      (unlimited.evaluate spaced).2.log.contents =
        ⟨.input, echo spaced, ""⟩ :: (unlimited.exec spaced).2.log.contents := by
  have capacity : unlimited.log.capacity = 0 := rfl
  obtain ⟨replies, state, _, contents⟩ := exec_term unlimited (read_spaced unlimited)
  exact ⟨⟨_, read_spaced unlimited⟩, by decide +kernel, capacity, congrArg List.length replies,
    state, contents capacity⟩

end

end UntypedLambda.Session
