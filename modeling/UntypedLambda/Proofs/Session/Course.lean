import UntypedLambda.Proofs.Expansion.Dependency
import UntypedLambda.Proofs.Log.Marks
import UntypedLambda.Proofs.Reduction.Blocks
import UntypedLambda.Proofs.Reduction.Soundness
import UntypedLambda.Proofs.Session.Faithful
import UntypedLambda.Proofs.Session.Mirror
import UntypedLambda.Proofs.Session.Quotes
import UntypedLambda.Proofs.Session.Settings
import UntypedLambda.Proofs.Token.Segments

/-! # The course of an evaluation

The log of an evaluation tells what came of it.  It begins with the text, then come the characters
that start no token, and then there is one course for each way in which the evaluation can go: the
text is no term, the names in it cannot be expanded, the expanded term has no normal form within
the bound, or it has one.

Main statement: `evaluate_transcript`. -/
set_option autoImplicit false

namespace UntypedLambda

namespace Session

open Log (Note)
open Entry (Mark)
open Reduction (Blocks)

/-! ## Courses -/

/-- An error and the line quoted below it. -/
def quotedError : List Mark := [.alone .error, .below .error]

/-- So many names were expanded; what came of it is shown if there was any. -/
def expandedNames (count : Nat) : List Mark :=
  List.replicate count (.alone .delta) ++ if count = 0 then [] else [.alone .deltaSummary]

/-- What is entered behind the errors of scanning, by what the evaluation gives. -/
inductive Course (bound : Nat) (shares : Term → Prop) : Except Error Term → List Mark → Prop where
  | unread {e : ParseError} (placed : e ≠ .nonTerminating) :
      Course bound shares (.error (.parse e)) quotedError
  | loop : Course bound shares (.error (.parse .nonTerminating)) [.alone .error]
  | unexpanded (visited reached : Term) (count : Nat) :
      Course bound shares (.error (.depth ⟨visited, bound + 1, reached⟩))
        (.alone .parsed :: (List.replicate count (.alone .delta) ++ [.alone .error]))
  | unreduced (visited reached : Term) (count : Nat) {steps : List Entry.Kind}
      (blocks : Blocks steps) :
      Course bound shares (.error (.depth ⟨visited, bound + 1, reached⟩))
        (.alone .parsed :: (expandedNames count ++ (steps.map .alone ++ [.alone .error])))
  | reduced {u : Term} (count : Nat) {steps : List Entry.Kind} (blocks : Blocks steps)
      (alone : ¬ shares u) :
      Course bound shares (.ok u)
        (.alone .parsed :: (expandedNames count ++ (steps.map .alone ++ [.alone .result])))
  | shared {u : Term} (count : Nat) {steps : List Entry.Kind} (blocks : Blocks steps)
      (equal : shares u) :
      Course bound shares (.ok u)
        (.alone .parsed :: (expandedNames count ++
          (steps.map .alone ++ [.alone .result, .below .equivalence])))

/-- Equivalents are shown, and some bound name has been entered with the fingerprint of `t`. -/
def Shares (s : Session) (t : Term) : Prop :=
  s.options.showEquivalent = true ∧
    ∃ name ∈ s.bindings, s.equivalences.fingerprints[name]? = some t.structureFingerprint

/-- The message of the error that an evaluation ends with, if it does. -/
def endMessage {α : Type} : Except Error α → List String
  | .ok _ => []
  | .error e => [e.message]

/-! ## Notes and their marks -/

section
variable {log : Log}

theorem marks_unplaced {e : Error} (unplaced : e.location? = none) :
    Note.marks log (.error e) = [.alone .error] := by
  rw [Note.marks, Note.child?, quotes?_of_unplaced unplaced]
  rfl

theorem marks_ofExpansion (run : Expansion.Run) :
    (Note.ofExpansion run).flatMap (Note.marks log) =
      List.replicate run.unfoldings.length (.alone .delta) ++
        run.summary?.toList.map fun _ => .alone .deltaSummary := by
  have unfoldings : (run.unfoldings.map Note.unfolding).flatMap (Note.marks log) =
      List.replicate run.unfoldings.length (.alone .delta) := by
    rw [List.flatMap_map]
    generalize run.unfoldings = us
    induction us with
    | nil => rfl
    | cons u us ih =>
        rw [List.flatMap_cons, ih, List.length_cons, List.replicate_succ]
        rfl
  rw [Note.ofExpansion, List.flatMap_append, unfoldings]
  cases run.summary? <;> rfl

theorem marks_ofExpansion_of_ok {run : Expansion.Run} {u : Term} (success : run.result = .ok u) :
    (Note.ofExpansion run).flatMap (Note.marks log) = expandedNames run.unfoldings.length := by
  rw [marks_ofExpansion, Expansion.Run.summary?, success, expandedNames]
  cases run.unfoldings <;> rfl

theorem marks_ofExpansion_of_error {run : Expansion.Run} {stop : Stop}
    (failure : run.result = .error stop) : (Note.ofExpansion run).flatMap (Note.marks log) =
      List.replicate run.unfoldings.length (.alone .delta) := by
  rw [marks_ofExpansion, Expansion.Run.summary?, failure]
  exact List.append_nil _

theorem marks_ofReduction (run : Reduction.Run) :
    (Note.ofReduction run).flatMap (Note.marks log) = run.kinds.map .alone := by
  rw [Note.ofReduction, Reduction.Run.kinds, List.flatMap_map, List.map_map]
  generalize run.events = es
  induction es with
  | nil => rfl
  | cons e es ih =>
      rw [List.flatMap_cons, ih]
      rfl

theorem reports_ofExpansion (run : Expansion.Run) :
    (Note.ofExpansion run).filterMap Note.report? = [] := by
  rw [List.filterMap_eq_nil_iff]
  intro n member
  rcases List.mem_append.mp member with unfolded | summary
  · obtain ⟨u, _, rfl⟩ := List.mem_map.mp unfolded
    rfl
  · obtain ⟨t, _, rfl⟩ := List.mem_map.mp summary
    rfl

theorem reports_ofReduction (run : Reduction.Run) :
    (Note.ofReduction run).filterMap Note.report? = [] := by
  rw [List.filterMap_eq_nil_iff]
  intro n member
  obtain ⟨e, _, rfl⟩ := List.mem_map.mp member
  rfl

theorem equivalents_ne_nil {s : Session} (mirrored : Mirrored s) (t : Term) :
    s.equivalents t ≠ [] ↔
      ∃ name ∈ s.bindings, s.equivalences.fingerprints[name]? = some t.structureFingerprint := by
  constructor
  · intro some
    obtain ⟨name, member⟩ := List.exists_mem_of_ne_nil _ some
    have found := (mem_equivalents mirrored).mp member
    refine ⟨name, ?_, found⟩
    rw [Std.TreeMap.mem_iff_isSome_getElem?, ← lookup, ← mirrored.names, found]
    rfl
  · rintro ⟨name, _, found⟩
    exact List.ne_nil_of_mem ((mem_equivalents mirrored).mpr found)

theorem marks_resultNote_of_shares {s : Session} (mirrored : Mirrored s) {t : Term}
    (shares : s.Shares t) :
    Note.marks log (s.resultNote t) = [.alone .result, .below .equivalence] := by
  obtain ⟨on, equal⟩ := shares
  have some := (equivalents_ne_nil mirrored t).mpr equal
  rw [resultNote, on, if_pos rfl, Note.marks, Note.child?, if_neg (by simpa using some)]
  rfl

theorem marks_resultNote {s : Session} (mirrored : Mirrored s) {t : Term}
    (alone : ¬ s.Shares t) : Note.marks log (s.resultNote t) = [.alone .result] := by
  have none : (if s.options.showEquivalent then s.equivalents t else []) = [] := by
    by_contra some
    split at some
    · rename_i on
      exact alone ⟨on, (equivalents_ne_nil mirrored t).mp some⟩
    · exact some rfl
  rw [resultNote, none]
  rfl

end

/-! ## A term that has been read -/

section
variable {s : Session} {t : Term}

theorem fst_reduce (whole : t.HoleFree) :
    (s.reduce t).1 = (Reduction.run s.options.reduction {} t).toExcept := by
  unfold reduce
  dsimp only
  cases result : (Reduction.run s.options.reduction {} t).toExcept with
  | ok u => rfl
  | error e =>
      obtain ⟨_, _, rfl⟩ := Reduction.depthError_of_run whole result
      rfl

/-- The course from the reduction on. -/
theorem course_reduce (log : Log) (mirrored : Mirrored s) (whole : t.HoleFree) (count : Nat) :
    Course s.options.bound s.Shares (s.reduce t).1
      (.alone .parsed :: (expandedNames count ++ (s.reduceNotes t).flatMap (Note.marks log))) ∧
    (s.reduceNotes t).filterMap Note.report? = endMessage (s.reduce t).1 := by
  have blocks := Reduction.blocks_visit s.options.reduction (s.options.bound + 1) 0 t {}
  rw [fst_reduce whole, reduceNotes, List.flatMap_append, marks_ofReduction,
    List.filterMap_append, reports_ofReduction]
  cases result : (Reduction.run s.options.reduction {} t).toExcept with
  | ok u =>
      refine ⟨?_, rfl⟩
      rw [List.flatMap_singleton]
      by_cases shares : s.Shares u
      · rw [marks_resultNote_of_shares mirrored shares]
        exact .shared count blocks shares
      · rw [marks_resultNote mirrored shares]
        exact .reduced count blocks shares
  | error e =>
      obtain ⟨visited, reached, rfl⟩ := Reduction.depthError_of_run whole result
      refine ⟨?_, rfl⟩
      rw [List.flatMap_singleton, marks_unplaced rfl]
      exact .unreduced visited reached count blocks

/-- Neither the term nor a definition has a hole, so only the bound can stop the work. -/
theorem course_evaluateTerm (log : Log) (mirrored : Mirrored s)
    (definitions : ∀ name d, s.lookup name = some d → d.HoleFree) (whole : t.HoleFree) :
    Course s.options.bound s.Shares (s.evaluateTerm t).result
      ((s.termNotes t).flatMap (Note.marks log)) ∧
    (s.termNotes t).filterMap Note.report? = endMessage (s.evaluateTerm t).result := by
  have parsed : Note.marks log (.parsed t) = [.alone .parsed] := rfl
  have silent : (Note.parsed t).report? = none := rfl
  rw [termNotes, List.flatMap_cons, List.flatMap_append, parsed,
    List.filterMap_cons_none silent, List.filterMap_append, reports_ofExpansion]
  unfold evaluateTerm
  dsimp only
  cases result : (Expansion.run s.lookup s.options.bound t).result with
  | ok u =>
      have expanded : (Expansion.run s.lookup s.options.bound t).toExcept = .ok u := by
        rw [Expansion.Run.toExcept, result, Except.mapError_ok]
      have wholeResult := (Expansion.expands_of_visit result).holeFree
      have reduced := course_reduce log mirrored wholeResult
        (Expansion.run s.lookup s.options.bound t).unfoldings.length
      rw [fst_reduce wholeResult] at reduced
      rw [marks_ofExpansion_of_ok result, expanded]
      dsimp only
      rw [fst_reduce wholeResult]
      exact reduced
  | error stop =>
      obtain ⟨e, failed⟩ : ∃ e, (Expansion.run s.lookup s.options.bound t).toExcept = .error e :=
        ⟨_, by rw [Expansion.Run.toExcept, result, Except.mapError_error]⟩
      obtain ⟨visited, reached, rfl⟩ := Expansion.depthError_of_run definitions whole failed
      rw [marks_ofExpansion_of_error result, failed]
      dsimp only
      rw [List.flatMap_singleton, marks_unplaced rfl]
      exact ⟨.unexpanded visited reached _, rfl⟩

end

/-! ## A text -/

theorem isStep_of_mem_blocks {steps : List Entry.Kind} (blocks : Blocks steps) :
    ∀ kind ∈ steps, kind.isStep = true := by
  induction blocks with
  | nil => simp
  | free _ ih =>
      intro kind member
      rcases List.mem_cons.mp member with rfl | later
      · rfl
      · exact ih kind later
  | contraction renamings _ ih =>
      intro kind member
      rcases List.mem_append.mp member with front | later
      · rw [List.eq_of_mem_replicate front]
        rfl
      · rcases List.mem_cons.mp later with rfl | later
        · rfl
        · exact ih kind later

/-- There is a result in the log exactly if there is one. -/
theorem Course.result_mem {bound : Nat} {shares : Term → Prop} {r : Except Error Term}
    {ms : List Mark} (course : Course bound shares r ms) :
    .alone .result ∈ ms ↔ ∃ u, r = .ok u := by
  have noStep : ∀ {steps : List Entry.Kind}, Blocks steps → .result ∉ steps :=
    fun blocks member => by cases isStep_of_mem_blocks blocks _ member
  have noName : ∀ count, Mark.alone .result ∉ expandedNames count := by
    intro count member
    rcases List.mem_append.mp member with unfolded | summary
    · cases List.eq_of_mem_replicate unfolded
    · split at summary <;> simp at summary
  cases course with
  | unread placed => simp [quotedError]
  | loop => simp
  | unexpanded visited reached count =>
      simp [List.mem_replicate]
  | unreduced visited reached count blocks => simp [noStep blocks, noName count]
  | reduced count blocks alone => simp
  | shared count blocks equal => simp

theorem marks_scanNotes {source : String} {log : Log} (quoting : Quoting source log) :
    (scanNotes source).flatMap (Note.marks log) =
      (Token.scan source).errors.flatMap fun _ => quotedError := by
  rw [scanNotes, List.flatMap_map]
  refine List.flatMap_congr fun e member => ?_
  rw [Note.marks, Note.child?, quotes?_lex quoting member]
  rfl

theorem reports_scanNotes (source : String) : (scanNotes source).filterMap Note.report? =
    (Token.scan source).errors.map LexError.message := by
  rw [scanNotes, List.filterMap_map, ← List.filterMap_eq_map]
  rfl

theorem course_of_unread {source : String} {log : Log} (quoting : Quoting source log)
    {bound : Nat} {shares : Term → Prop} {e : ParseError}
    (known : e = .nonTerminating ∨ e.Among (Token.scan source).tokens) :
    Course bound shares (.error (.parse e)) (Note.marks log (.error (.parse e))) := by
  rw [Note.marks, Note.child?, quotes?_parse quoting known]
  by_cases guard : e = .nonTerminating
  · subst guard
    exact .loop
  · rw [if_neg guard]
    exact .unread guard

theorem fst_evaluate (s : Session) (input : String) :
    (s.evaluate input).1 = (s.evaluated input).1 :=
  @fst_eq_of_relog _ (·.evaluate input) _ _ s fun v log => relog_evaluate s v log input

/-- The notes of an evaluation behind those of the scanning. -/
theorem exists_course {s : Session} (reachable : Reachable s) {input : String} {log : Log}
    (quoting : Quoting input log) : ∃ rest : List Note, s.evaluateNotes input =
      [.clear, .source input, .input (echo input)] ++ (scanNotes input ++ rest) ∧
    (∀ n ∈ rest, n.Plain) ∧
    Course s.options.bound s.Shares (s.evaluate input).1 (rest.flatMap (Note.marks log)) ∧
    rest.filterMap Note.report? = endMessage (s.evaluate input).1 := by
  obtain ⟨ledger, sound⟩ := reachable.sound
  obtain ⟨ledger', _, after, resolved⟩ := sound.read input
  obtain ⟨options, bindings⟩ := read_keeps s input
  have equivalences := equivalences_read s input
  have mirrored := reachable.mirrored.same bindings equivalences
  have known : ∀ e, (s.read input).1 = .error e →
      e = .nonTerminating ∨ e.Among (Token.scan input).tokens := by
    intro e failed
    rw [read_eq] at failed
    exact Parser.error_of_parseTerm (Parser.closed_scan input) failed
  rw [fst_evaluate, evaluated, evaluateNotes, readNotes]
  generalize s.read input = found at *
  obtain ⟨result, s'⟩ := found
  cases result with
  | error e =>
      refine ⟨[.error (.parse e)], by simp, by simp [Note.Plain], ?_, rfl⟩
      rw [List.flatMap_singleton]
      exact course_of_unread quoting (known e rfl)
  | ok t =>
      have whole := (resolved t rfl).spliced.holeFree
      have definitions : ∀ name d, s'.lookup name = some d → d.HoleFree :=
        fun name d found => (after.defines name d found).spliced.holeFree
      have shares : s'.Shares = s.Shares := by
        funext u
        rw [Shares, options, bindings, equivalences, Shares]
      obtain ⟨course, messages⟩ := course_evaluateTerm log mirrored definitions whole
      rw [options, shares] at course
      exact ⟨s'.termNotes t, by simp, fun n member => (quotes?_termNotes s' log t n member).2,
        course, messages⟩

/-- What an evaluation has added to the log that it cleared. -/
theorem exists_grows {s : Session} (reachable : Reachable s)
    (shown : s.options.verbosity.atLeast .low = true) (unlimited : s.options.traceCapacity ≤ 0)
    (input : String) : ∃ rest,
    Course s.options.bound s.Shares (s.evaluate input).1 rest ∧
    Log.Grows (.alone .input :: ((Token.scan input).errors.flatMap (fun _ => quotedError) ++ rest))
      ((Token.scan input).errors.map LexError.message ++ endMessage (s.evaluate input).1)
      (s.log.clear.setSource input) (s.evaluate input).2.log := by
  obtain ⟨verbosity, capacity⟩ := reachable.settings
  have quoting : Quoting input (s.log.clear.setSource input) := rfl
  obtain ⟨rest, noted, plain, course, messages⟩ := exists_course reachable quoting
  have written : (s.evaluate input).2.log = (s.log.clear.setSource input).writeAll
      (.input (echo input) :: (scanNotes input ++ rest)) := by
    have log := log_answer s (.call (.evaluate input))
    rwa [notes, noted] at log
  have noLimit : (s.log.clear.setSource input).capacity = 0 :=
    capacity.trans (Int.toNat_of_nonpos unlimited)
  have showsSteps : (s.log.clear.setSource input).showsSteps = true := by
    rw [← verbosity] at shown
    exact shown
  have plainAll : ∀ n ∈ .input (echo input) :: (scanNotes input ++ rest), n.Plain := by
    intro n member
    rcases List.mem_cons.mp member with rfl | later
    · trivial
    · rcases List.mem_append.mp later with lex | behind
      · obtain ⟨e, _, rfl⟩ := List.mem_map.mp lex
        trivial
      · exact plain n behind
  have echoed : (Note.input (echo input)).report? = none := rfl
  have grows := Log.Grows.writeAll noLimit showsSteps plainAll
  rw [← written, List.flatMap_cons, List.flatMap_append, marks_scanNotes quoting,
    List.filterMap_cons_none echoed, List.filterMap_append, reports_scanNotes, messages] at grows
  exact ⟨_, course, grows⟩

/-- While steps are shown and the log has no limit, the log of an evaluation has the text, every
character that starts no token with its line quoted below, in the order in which they stand, and
then the course of the evaluation.  No error is told twice, and the log says that there was an
error exactly if there was one. -/
theorem evaluate_transcript {s : Session} (reachable : Reachable s)
    (shown : s.options.verbosity.atLeast .low = true) (unlimited : s.options.traceCapacity ≤ 0)
    (input : String) :
    let done := s.evaluate input
    let errors := (Token.scan input).errors
    let entries := done.2.log.entries.toList
    (∃ rest, Course s.options.bound s.Shares done.1 rest ∧ Log.marks 0 entries =
      .alone .input :: (errors.flatMap (fun _ => quotedError) ++ rest)) ∧
    (.alone .result ∈ Log.marks 0 entries ↔ ∃ u, done.1 = .ok u) ∧
    Log.reports entries = errors.map LexError.message ++ endMessage done.1 ∧
    (errors.Pairwise fun e f => e.line < f.line ∨ e.line = f.line ∧ e.col < f.col) ∧
    (done.2.log.hasError = true ↔ errors ≠ [] ∨ ∃ e, done.1 = .error e) := by
  intro done errors entries
  obtain ⟨rest, course, grows⟩ := exists_grows reachable shown unlimited input
  obtain ⟨es, grown, marked, reported⟩ := grows.added
  have only : entries = es := grown
  have noResult : Mark.alone .result ∉ quotedError := by decide
  refine ⟨⟨rest, course, by rw [only, marked]⟩, ?result, by rw [only, reported],
    Token.pairwise_errors input, ?hasError⟩
  case result =>
    rw [only, marked, ← course.result_mem]
    simp [noResult]
  case hasError =>
    have flag : done.2.log.hasError =
        !(errors.map LexError.message ++ endMessage done.1).isEmpty := grows.hasError
    rw [flag]
    cases done.1 <;> simp [endMessage]

/-- The text has a character that starts no token, and a parenthesis is not closed. -/
theorem evaluate_transcript_unclosed : Reachable unlimited ∧
    unlimited.options.verbosity.atLeast .low = true ∧ unlimited.options.traceCapacity ≤ 0 ∧
    Log.marks 0 (unlimited.evaluate unclosedText).2.log.entries.toList =
      [.alone .input, .alone .error, .below .error, .alone .error, .below .error] ∧
    Log.reports (unlimited.evaluate unclosedText).2.log.entries.toList =
      [LexError.message ⟨2, 4, 'é'⟩,
        ParseError.message (.atToken ⟨.newline, "\n", 1, 5, 1⟩ .noExpression)] ∧
    (unlimited.evaluate unclosedText).2.log.hasError = true := by
  have reachable : Reachable unlimited := .setOptions (.new {}) { traceCapacity := 0 }
  have shown : unlimited.options.verbosity.atLeast .low = true := rfl
  have noLimit : unlimited.options.traceCapacity ≤ 0 := Int.le_refl 0
  obtain ⟨⟨rest, course, marks⟩, _, reports, _, hasError⟩ :=
    evaluate_transcript reachable shown noLimit unclosedText
  obtain ⟨scanned, read⟩ := read_unclosedText unlimited
  have failed : (unlimited.evaluate unclosedText).1 =
      .error (.parse (.atToken ⟨.newline, "\n", 1, 5, 1⟩ .noExpression)) := by
    rw [fst_evaluate, evaluated]
    generalize unlimited.read unclosedText = found at read
    obtain ⟨result, after⟩ := found
    dsimp only at read
    rw [read]
  rw [scanned] at marks reports hasError
  rw [failed] at course reports
  refine ⟨reachable, shown, noLimit, ?_, reports, hasError.mpr (Or.inl (List.cons_ne_nil _ _))⟩
  cases course with
  | unread placed => exact marks

end Session

end UntypedLambda
