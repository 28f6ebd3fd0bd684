import UntypedLambda.Proofs.Parser.Lines
import UntypedLambda.Proofs.Session.Reachable

/-! # The lines of a text, executed

A text of several lines has the effect of its lines, executed one after another, as long as no
term is refused by the guard against a literal loop.  After a refusal the next line is skipped.

Main statement: `exec_intercalate`. -/
set_option autoImplicit false

namespace UntypedLambda.Session

open Token

/-- The reply without the line of an error in reading. -/
def Reply.withinLine (r : Reply) : Reply :=
  match r.answer with
  | .failure (.parse e) => { r with answer := .failure (.parse e.withinLine) }
  | _ => r

def execEach (s : Session) : List String → List Reply × Session
  | [] => ([], s)
  | line :: lines =>
    let (replies, s) := s.exec line
    let (more, s) := s.execEach lines
    (replies ++ more, s)

/-- The reply to a term that is a literal loop. -/
def refusal : Reply := ⟨none, .failure (.parse .nonTerminating)⟩

/-- Like `execEach`, but the line behind a refusal is skipped, and the first line if `skip` says
so. -/
def execSkipping (skip : Bool) (s : Session) : List String → List Reply × Session
  | [] => ([], s)
  | line :: lines =>
    if skip then s.execSkipping false lines
    else
      let (replies, s) := s.exec line
      let (more, s) := s.execSkipping (decide (refusal ∈ replies)) lines
      (replies ++ more, s)

/-! ## What the log has no part in -/

/-- The two differ at most in the log and in the next number. -/
structure SameState (a b : Session) : Prop where
  options : a.options = b.options
  bindings : a.bindings = b.bindings
  equivalences : a.equivalences = b.equivalences
  stats : a.stats = b.stats

namespace SameState

theorem trans {a b c : Session} (first : SameState a b) (second : SameState b c) :
    SameState a c :=
  ⟨first.options.trans second.options, first.bindings.trans second.bindings,
    first.equivalences.trans second.equivalences, first.stats.trans second.stats⟩

variable {a b : Session} (same : SameState a b)
include same

theorem symm : SameState b a :=
  ⟨same.options.symm, same.bindings.symm, same.equivalences.symm, same.stats.symm⟩

theorem renumber (next : Int) : SameState { a with nextId := next } b :=
  ⟨same.options, same.bindings, same.equivalences, same.stats⟩

theorem exists_eq : ∃ log next, b = { a with log := log, nextId := next } := by
  obtain ⟨options, bindings, equivalences, stats⟩ := same
  refine ⟨b.log, b.nextId, ?_⟩
  rw [options, bindings, equivalences, stats]

theorem fail (e : Error) :
    (a.fail e).1 = (b.fail e).1 ∧ SameState (a.fail e).2 (b.fail e).2 := by
  obtain ⟨log, next, rfl⟩ := same.exists_eq
  unfold Session.fail
  dsimp only
  split <;> exact ⟨rfl, rfl, rfl, rfl, rfl⟩

theorem conclude (t : Term) : SameState (a.conclude t) (b.conclude t) := by
  obtain ⟨log, next, rfl⟩ := same.exists_eq
  unfold Session.conclude
  dsimp only
  split <;> split <;> exact ⟨rfl, rfl, rfl, rfl⟩

theorem reduce (t : Term) :
    (a.reduce t).1 = (b.reduce t).1 ∧ SameState (a.reduce t).2 (b.reduce t).2 := by
  obtain ⟨log, next, rfl⟩ := same.exists_eq
  unfold Session.reduce
  dsimp only
  cases (Reduction.run a.options.reduction {} t).toExcept with
  | ok u =>
      refine ⟨rfl, ?_⟩
      apply SameState.conclude
      exact ⟨rfl, rfl, rfl, rfl⟩
  | error e =>
      refine ⟨congrArg Except.error (SameState.fail ?_ e).1, (SameState.fail ?_ e).2⟩
      · exact ⟨rfl, rfl, rfl, rfl⟩
      · exact ⟨rfl, rfl, rfl, rfl⟩

theorem evaluateTerm (t : Term) :
    (a.evaluateTerm t).result = (b.evaluateTerm t).result ∧
      (a.evaluateTerm t).expanded = (b.evaluateTerm t).expanded ∧
      SameState (a.evaluateTerm t).session (b.evaluateTerm t).session := by
  obtain ⟨log, next, rfl⟩ := same.exists_eq
  have lookup : lookup { a with log := log, nextId := next } = a.lookup := rfl
  unfold Session.evaluateTerm
  dsimp only
  rw [lookup]
  cases (Expansion.run a.lookup a.options.bound t).toExcept with
  | ok u =>
      refine ⟨(SameState.reduce ?_ u).1, rfl, (SameState.reduce ?_ u).2⟩
      · exact ⟨rfl, rfl, rfl, rfl⟩
      · exact ⟨rfl, rfl, rfl, rfl⟩
  | error e =>
      refine ⟨congrArg Except.error (SameState.fail ?_ e).1, rfl, (SameState.fail ?_ e).2⟩
      · exact ⟨rfl, rfl, rfl, rfl⟩
      · exact ⟨rfl, rfl, rfl, rfl⟩

theorem command (c : Command) :
    (a.command c).1 = (b.command c).1 ∧ SameState (a.command c).2 (b.command c).2 := by
  obtain ⟨log, next, rfl⟩ := same.exists_eq
  cases c with
  | env argument => exact ⟨rfl, same⟩
  | help argument => exact ⟨rfl, same⟩
  | unknown argument => exact ⟨rfl, same⟩
  | unbind name =>
      unfold Session.command
      dsimp only
      split
      · exact ⟨rfl, same⟩
      · split
        · exact ⟨rfl, rfl, rfl, rfl, rfl⟩
        · exact ⟨rfl, same⟩

theorem execStatement (st : Statement) :
    (a.execStatement st).1 = (b.execStatement st).1 ∧
      SameState (a.execStatement st).2 (b.execStatement st).2 := by
  cases st with
  | term t =>
      obtain ⟨result, expanded, state⟩ := same.evaluateTerm t
      unfold Session.execStatement
      dsimp only
      rw [result, expanded]
      exact ⟨rfl, state⟩
  | binding name t =>
      obtain ⟨log, next, rfl⟩ := same.exists_eq
      exact ⟨rfl, rfl, rfl, rfl, rfl⟩
  | command c =>
      obtain ⟨answer, state⟩ := same.command c
      unfold Session.execStatement Session.say
      dsimp only
      rw [answer]
      exact ⟨rfl, state.options, state.bindings, state.equivalences, state.stats⟩

/-- The same statement, or errors that differ in their places only, has the same effect. -/
theorem execNext {found found' : Except ParseError (Option Statement)}
    (alike : found.mapError ParseError.withinLine = found'.mapError ParseError.withinLine) :
    (a.execNext found).1.map Reply.withinLine = (b.execNext found').1.map Reply.withinLine ∧
      SameState (a.execNext found).2 (b.execNext found').2 := by
  rcases mapError_eq_cases alike with ⟨st, rfl, rfl⟩ | ⟨e, e', rfl, rfl, places⟩
  · cases st with
    | none => exact ⟨rfl, same⟩
    | some st =>
        obtain ⟨reply, state⟩ := same.execStatement st
        unfold Session.execNext
        dsimp only
        rw [reply]
        exact ⟨rfl, state⟩
  · obtain ⟨log, next, rfl⟩ := same.exists_eq
    refine ⟨?_, rfl, rfl, rfl, rfl⟩
    simp only [Session.execNext, Option.map_some, Reply.withinLine, places]

end SameState

/-! ## Statement by statement -/

theorem execAll_of_done {p : Parser} (atLast : p.done = true) (s : Session) :
    s.execAll p = ([], { s with nextId := p.nextId }) := by
  rw [execAll, dif_pos atLast]

theorem execAll_of_next {p : Parser} (more : p.done = false) (s : Session) :
    s.execAll p =
      ((s.execNext p.next.1).1.toList ++ ((s.execNext p.next.1).2.execAll p.next.2).1,
        ((s.execNext p.next.1).2.execAll p.next.2).2) := by
  rw [execAll, dif_neg (by simp [more])]

theorem execAll_eof {eof : Token} (isEof : eof.kind = .eof) (s : Session) (next : Int) :
    s.execAll ⟨[eof], next⟩ = ([], { s with nextId := next }) :=
  execAll_of_done (Parser.done_eof isEof next) s

theorem execAll_newline {newline : Token} (isNewline : newline.kind = .newline)
    (rest : List Token) (s : Session) (next : Int) :
    s.execAll ⟨newline :: rest, next⟩ = s.execAll ⟨rest, next⟩ := by
  have skipped : Parser.skipNewlines (newline :: rest) = Parser.skipNewlines rest := by
    simp [Parser.skipNewlines, isNewline]
  have sameDone : Parser.done ⟨newline :: rest, next⟩ = Parser.done ⟨rest, next⟩ := by
    simp only [Parser.done, Parser.skipped, skipped]
  have sameNext : Parser.next ⟨newline :: rest, next⟩ = Parser.next ⟨rest, next⟩ := by
    simp only [Parser.next, skipped]
  cases ended : Parser.done ⟨rest, next⟩ with
  | true => rw [execAll_of_done ended, execAll_of_done (sameDone.trans ended)]
  | false => rw [execAll_of_next ended, execAll_of_next (sameDone.trans ended), sameNext]

theorem exec_eq (s : Session) (source : String) : ∃ log,
    s.exec source = { s with log := log }.execAll ⟨(scan source).tokens, s.nextId⟩ :=
  ⟨_, rfl⟩

/-- A text with one statement. -/
theorem exec_single (s : Session) {source : String}
    (more : Parser.done ⟨(scan source).tokens, s.nextId⟩ = false)
    (last : (Parser.next ⟨(scan source).tokens, s.nextId⟩).2.done = true) :
    let read := Parser.next ⟨(scan source).tokens, s.nextId⟩
    ∃ s' : Session, SameState s' s ∧ s.exec source =
      ((s'.execNext read.1).1.toList, { (s'.execNext read.1).2 with nextId := read.2.nextId }) := by
  intro read
  obtain ⟨log, run⟩ := s.exec_eq source
  refine ⟨{ s with log := log }, ⟨rfl, rfl, rfl, rfl⟩, ?_⟩
  rw [run, execAll_of_next more, execAll_of_done last, List.append_nil]

/-! ## One line -/

/-- The effect of two texts, places and logs apart. -/
structure SameEffect (a b : List Reply × Session) : Prop where
  replies : a.1.map Reply.withinLine = b.1.map Reply.withinLine
  state : SameState a.2 b.2
  nextId : a.2.nextId = b.2.nextId

theorem exec_blank {line : String} (one : '\n' ∉ line.toList)
    (nothing : lineTokens 1 line.toList = []) (s : Session) :
    (s.exec line).1 = [] ∧ SameState s (s.exec line).2 ∧ (s.exec line).2.nextId = s.nextId := by
  obtain ⟨log, run⟩ := s.exec_eq line
  have tokens := scan_line one
  rw [nothing, List.nil_append] at tokens
  rw [run, tokens, execAll_newline rfl, execAll_eof rfl]
  exact ⟨rfl, ⟨rfl, rfl, rfl, rfl⟩, rfl⟩

theorem mem_execNext_refusal {s : Session} {found : Except ParseError (Option Statement)} :
    refusal ∈ (s.execNext found).1.toList ↔ found = .error .nonTerminating := by
  cases found with
  | error e => simp [execNext, refusal, eq_comm]
  | ok st =>
      cases st with
      | none => simp [execNext]
      | some st =>
          cases st with
          | term t => simp [execNext, execStatement, refusal]
          | binding name t => simp [execNext, execStatement, say, refusal]
          | command c => simp [execNext, execStatement, say, refusal]

theorem withinLine_eq_nonTerminating {e : ParseError} (same : e.withinLine = .nonTerminating) :
    e = .nonTerminating := by
  obtain ⟨cause, lexeme, line, col, length, atEnd⟩ := e
  cases lineEnd : isLineEnd lexeme with
  | true => simp [ParseError.withinLine, ParseError.nonTerminating, lineEnd] at same
  | false =>
      simpa [ParseError.withinLine, ParseError.nonTerminating, lineEnd,
        Int.sign_eq_zero_iff_zero] using same

theorem refused_iff {found found' : Except ParseError (Option Statement)}
    (alike : found.mapError ParseError.withinLine = found'.mapError ParseError.withinLine) :
    found = .error .nonTerminating ↔ found' = .error .nonTerminating := by
  have fixed : ParseError.nonTerminating.withinLine = .nonTerminating := rfl
  rcases mapError_eq_cases alike with ⟨st, rfl, rfl⟩ | ⟨e, e', rfl, rfl, places⟩
  · exact Iff.rfl
  · simp only [Except.error.injEq]
    constructor
    · rintro rfl
      exact withinLine_eq_nonTerminating (places.symm.trans fixed)
    · rintro rfl
      exact withinLine_eq_nonTerminating (places.trans fixed)

theorem execAll_of_read {token newline : Token} {line : List Token}
    (inner : ∀ t ∈ token :: line, Inner t) {next next' : Int}
    {found : Except ParseError (Option Statement)} {rest left : List Token}
    (read : Parser.next ⟨token :: (line ++ newline :: rest), next⟩ = (found, ⟨left, next'⟩))
    (s : Session) : s.execAll ⟨token :: (line ++ newline :: rest), next⟩ =
      ((s.execNext found).1.toList ++ ((s.execNext found).2.execAll ⟨left, next'⟩).1,
        ((s.execNext found).2.execAll ⟨left, next'⟩).2) := by
  rw [execAll_of_next (Parser.done_line inner rest next), read]

/-- A line in a text has the effect that it has alone, and the text goes on with the next line,
or, after a refusal, behind it. -/
theorem execAll_line {line : String} (one : '\n' ∉ line.toList) {tokens : List Token}
    (some : tokens ≠ []) (alike : List.Forall₂ Alike (lineTokens 1 line.toList) tokens)
    {newline : Token} (ends : Alike (lineEnd line.toList) newline) {a b : Session}
    (same : SameState a b) :
    ∃ (reply : Option Reply) (s : Session) (next : Int),
      SameEffect (reply.toList, { s with nextId := next }) (b.exec line) ∧
      ∀ rest, a.execAll ⟨tokens ++ newline :: rest, b.nextId⟩ =
        let left := if refusal ∈ (b.exec line).1 then Parser.synchronize rest else rest
        (reply.toList ++ (s.execAll ⟨left, next⟩).1, (s.execAll ⟨left, next⟩).2) := by
  have inner : ∀ t ∈ lineTokens 1 line.toList, Inner t := fun t => inner_of_mem_lineTokens one
  have inner' := inner_alike alike inner
  obtain ⟨log, run⟩ := b.exec_eq line
  have isEof : (sourceEnd line.toList).kind = .eof := rfl
  have scanned := scan_line one
  generalize lineTokens 1 line.toList = alone at alike inner scanned
  cases alike with
  | nil => exact absurd rfl some
  | @cons x y alone tokens first later =>
      have isNewline : (lineEnd line.toList).kind = .newline := rfl
      have isNewline' : newline.kind = .newline := ends.kind.symm
      obtain ⟨found, next, read⟩ := Parser.next_line isNewline inner b.nextId
      obtain ⟨found', next', read'⟩ := Parser.next_line isNewline' inner' b.nextId
      have both : List.Forall₂ Alike (x :: (alone ++ [lineEnd line.toList]))
          (y :: (tokens ++ [newline])) := .cons first (List.rel_append later (.cons ends .nil))
      obtain ⟨places, rfl⟩ : found.mapError ParseError.withinLine =
          found'.mapError ParseError.withinLine ∧ next = next' := by
        have matched := Parser.next_indistinct indistinct_alike both b.nextId
        rw [read, read'] at matched
        exact matched
      have single : b.exec line = (({ b with log := log }.execNext found).1.toList,
          { ({ b with log := log }.execNext found).2 with nextId := next }) := by
        rw [run, scanned, List.cons_append, execAll_of_read inner (read [sourceEnd line.toList]),
          Parser.synchronize_eof isEof, ite_self, execAll_eof isEof, List.append_nil]
      have logged : SameState a { b with log := log } :=
        ⟨same.options, same.bindings, same.equivalences, same.stats⟩
      obtain ⟨replies, state⟩ := logged.execNext places.symm
      refine ⟨(a.execNext found').1, (a.execNext found').2, next, ?_, ?_⟩
      · rw [single]
        refine ⟨?_, ⟨state.options, state.bindings, state.equivalences, state.stats⟩, rfl⟩
        rw [← Option.toList_map, replies, Option.toList_map]
      · intro rest
        have refused : refusal ∈ (b.exec line).1 ↔ found' = .error .nonTerminating := by
          rw [single, ← refused_iff places]
          exact mem_execNext_refusal
        rw [List.cons_append, execAll_of_read inner' (read' rest)]
        simp only [refused]

/-! ## All lines -/

theorem execSkipping_cons (s : Session) (line : String) (lines : List String) :
    s.execSkipping false (line :: lines) =
      ((s.exec line).1 ++
          ((s.exec line).2.execSkipping (decide (refusal ∈ (s.exec line).1)) lines).1,
        ((s.exec line).2.execSkipping (decide (refusal ∈ (s.exec line).1)) lines).2) := rfl

theorem execEach_cons (s : Session) (line : String) (lines : List String) :
    s.execEach (line :: lines) =
      ((s.exec line).1 ++ ((s.exec line).2.execEach lines).1,
        ((s.exec line).2.execEach lines).2) := rfl

theorem SameEffect.append {replies replies' : List Reply} {a b : List Reply × Session}
    (first : replies.map Reply.withinLine = replies'.map Reply.withinLine)
    (later : SameEffect a b) : SameEffect (replies ++ a.1, a.2) (replies' ++ b.1, b.2) := by
  obtain ⟨replies, state, nextId⟩ := later
  refine ⟨?_, state, nextId⟩
  rw [List.map_append, List.map_append, first, replies]

theorem execAll_spells {texts : List (List Char)} {tokens : List Token}
    (spells : Spells texts tokens) {lines : List String}
    (same : lines.map String.toList = texts) {a b : Session} (state : SameState a b) :
    SameEffect (a.execAll ⟨tokens, b.nextId⟩) (b.execSkipping false lines) ∧
      SameEffect (a.execAll ⟨Parser.synchronize tokens, b.nextId⟩) (b.execSkipping true lines) := by
  induction spells generalizing lines a b with
  | @nil eof isEof =>
      obtain rfl := List.map_eq_nil_iff.mp same
      have ended : SameEffect ([], { a with nextId := b.nextId }) ([], b) :=
        ⟨rfl, state.renumber _, rfl⟩
      rw [Parser.synchronize_eof isEof, execAll_eof isEof]
      exact ⟨ended, ended⟩
  | @blank text eof one nothing isEof =>
      obtain ⟨line, rfl, rfl⟩ := List.map_eq_singleton_iff.mp same
      obtain ⟨silent, kept, number⟩ := exec_blank one nothing b
      have ended : SameEffect ([], { a with nextId := b.nextId }) ([], b) :=
        ⟨rfl, state.renumber _, rfl⟩
      rw [Parser.synchronize_eof isEof, execAll_eof isEof, execSkipping_cons, silent]
      exact ⟨⟨rfl, (state.trans kept).renumber _, number.symm⟩, ended⟩
  | @cons text texts line tokens newline one alike ends later ih =>
      obtain ⟨source, lines, rfl, rfl, rest⟩ := List.map_eq_cons_iff.mp same
      have isNewline : newline.kind = .newline := ends.kind.symm
      constructor
      · by_cases empty : line = []
        · subst empty
          obtain ⟨silent, kept, number⟩ :=
            exec_blank one (List.forall₂_nil_right_iff.mp alike) b
          rw [List.nil_append, execAll_newline isNewline, execSkipping_cons, silent, ← number]
          exact (ih rest (state.trans kept)).1
        · obtain ⟨reply, s, next, effect, run⟩ := execAll_line one empty alike ends state
          have state' : SameState s (b.exec source).2 :=
            ⟨effect.state.options, effect.state.bindings, effect.state.equivalences,
              effect.state.stats⟩
          have number : (b.exec source).2.nextId = next := effect.nextId.symm
          obtain ⟨goesOn, skips⟩ := ih rest state'
          rw [number] at goesOn skips
          rw [run, execSkipping_cons]
          by_cases refused : refusal ∈ (b.exec source).1
          · simp only [refused, if_true, decide_true]
            exact .append effect.replies skips
          · simp only [refused, if_false, decide_false]
            exact .append effect.replies goesOn
      · have inner := inner_alike alike fun t => inner_of_mem_lineTokens one
        rw [Parser.synchronize_line inner isNewline]
        exact (ih rest state).1

theorem exec_join (s : Session) {lines : List String}
    (separate : ∀ line ∈ lines, '\n' ∉ line.toList) :
    SameEffect (s.exec ("\n".intercalate lines)) (s.execSkipping false lines) := by
  by_cases empty : lines = []
  · subst empty
    have nothing : lineTokens 1 "".toList = [] := by simp [lineTokens, pieces]
    obtain ⟨silent, kept, number⟩ := exec_blank (by simp) nothing s
    rw [String.intercalate_nil]
    exact ⟨congrArg (List.map Reply.withinLine) silent, kept.symm, number⟩
  · obtain ⟨log, run⟩ := s.exec_eq ("\n".intercalate lines)
    have logged : SameState { s with log := log } s := ⟨rfl, rfl, rfl, rfl⟩
    rw [run]
    exact (execAll_spells (spells_scan empty separate) rfl logged).1

theorem execSkipping_eq_execEach {s : Session} {lines : List String}
    (accepted : refusal ∉ (s.execEach lines.dropLast).1) :
    s.execSkipping false lines = s.execEach lines := by
  induction lines generalizing s with
  | nil => rfl
  | cons line lines ih =>
      cases lines with
      | nil => rfl
      | cons next lines =>
          rw [List.dropLast_cons_cons, execEach_cons, List.mem_append, not_or] at accepted
          obtain ⟨here, later⟩ := accepted
          rw [execSkipping_cons, decide_eq_false here, ih later, execEach_cons s]

/-! ## Lines that fail -/

theorem exec_of_next {s : Session} {line : String} {found : Except ParseError (Option Statement)}
    {eof : Token} {next : Int} (more : Parser.done ⟨(scan line).tokens, s.nextId⟩ = false)
    (isEof : eof.kind = .eof)
    (read : Parser.next ⟨(scan line).tokens, s.nextId⟩ = (found, ⟨[eof], next⟩)) :
    ∃ s' : Session, (s.exec line).1 = (s'.execNext found).1.toList := by
  have last : (Parser.next ⟨(scan line).tokens, s.nextId⟩).2.done = true := by
    rw [read]
    exact Parser.done_eof isEof next
  obtain ⟨s', _, run⟩ := s.exec_single more last
  exact ⟨s', by rw [run, read]⟩

theorem exec_unclosed (s : Session) : refusal ∉ (s.exec "(oops").1 := by
  have scanned : (scan "(oops").tokens = [⟨.lparen, "(", 1, 1, 1⟩, ⟨.ident, "oops", 1, 2, 4⟩,
      ⟨.newline, "<newline>", 1, 6, 0⟩, ⟨.eof, "", 1, 6, 0⟩] := by
    decide +kernel
  have more : Parser.done ⟨(scan "(oops").tokens, s.nextId⟩ = false := by
    rw [scanned]
    rfl
  have read : Parser.next ⟨(scan "(oops").tokens, s.nextId⟩ =
      (.error (.atToken ⟨.newline, "<newline>", 1, 6, 0⟩ .noClosing),
        ⟨[⟨.eof, "", 1, 6, 0⟩], s.nextId⟩) := by
    rw [scanned]
    rfl
  obtain ⟨s', replies⟩ := exec_of_next more rfl read
  rw [replies, mem_execNext_refusal]
  exact fun same => nomatch same

theorem exec_y (s : Session) : (s.exec "y").1.length = 1 := by
  have scanned : (scan "y").tokens =
      [⟨.ident, "y", 1, 1, 1⟩, ⟨.newline, "<newline>", 1, 2, 0⟩, ⟨.eof, "", 1, 2, 0⟩] := by
    decide +kernel
  have more : Parser.done ⟨(scan "y").tokens, s.nextId⟩ = false := by
    rw [scanned]
    rfl
  have read : Parser.next ⟨(scan "y").tokens, s.nextId⟩ =
      (.ok (some (.term (.var "y" 0 false))), ⟨[⟨.eof, "", 1, 2, 0⟩], s.nextId⟩) := by
    rw [scanned]
    rfl
  obtain ⟨s', replies⟩ := exec_of_next more rfl read
  rw [replies]
  rfl

theorem scan_loop : (scan "(\\x. x x x) (\\x. x x x)").tokens =
    [⟨.lparen, "(", 1, 1, 1⟩, ⟨.lambda, "\\", 1, 2, 1⟩, ⟨.ident, "x", 1, 3, 1⟩,
      ⟨.dot, ".", 1, 4, 1⟩, ⟨.ident, "x", 1, 6, 1⟩, ⟨.ident, "x", 1, 8, 1⟩,
      ⟨.ident, "x", 1, 10, 1⟩, ⟨.rparen, ")", 1, 11, 1⟩, ⟨.lparen, "(", 1, 13, 1⟩,
      ⟨.lambda, "\\", 1, 14, 1⟩, ⟨.ident, "x", 1, 15, 1⟩, ⟨.dot, ".", 1, 16, 1⟩,
      ⟨.ident, "x", 1, 18, 1⟩, ⟨.ident, "x", 1, 20, 1⟩, ⟨.ident, "x", 1, 22, 1⟩,
      ⟨.rparen, ")", 1, 23, 1⟩, ⟨.newline, "<newline>", 1, 24, 0⟩, ⟨.eof, "", 1, 24, 0⟩] := by
  decide +kernel

theorem exec_loop (s : Session) : (s.exec "(\\x. x x x) (\\x. x x x)").1 = [refusal] := by
  have more : Parser.done ⟨(scan "(\\x. x x x) (\\x. x x x)").tokens, s.nextId⟩ = false := by
    rw [scan_loop]
    rfl
  -- the guard compares numbers that are not known here, so this one is not by `rfl`
  have read : Parser.next ⟨(scan "(\\x. x x x) (\\x. x x x)").tokens, s.nextId⟩ =
      (.error .nonTerminating, ⟨[⟨.eof, "", 1, 24, 0⟩], s.nextId + 1 + 1⟩) := by
    rw [scan_loop]
    simp [Parser.next, Parser.skipNewlines, Parser.atEnd, Parser.peek, Parser.statement,
      Parser.termStatement, Parser.termLine, Parser.endLine, Parser.synchronize, Reading.start,
      Reading.run, Reading.step, Reading.close, Reading.finish, Reading.whole, Reading.number,
      Reading.wrap, Reading.resolve, Reading.Frame.binders, Term.applied, Term.isNonTerminating,
      Term.isTripleSelfApplication]
  obtain ⟨s', replies⟩ := exec_of_next more rfl read
  rw [replies]
  rfl

/-! ## The result -/

/-- A text has the effect of its lines one after another, except that the line behind a refused
term is skipped.  So nothing but a refusal makes a line matter to the next one. -/
theorem exec_intercalate (s : Session) {lines : List String}
    (separate : ∀ line ∈ lines, '\n' ∉ line.toList) :
    SameEffect (s.exec ("\n".intercalate lines)) (s.execSkipping false lines) ∧
      (refusal ∉ (s.execEach lines.dropLast).1 →
        SameEffect (s.exec ("\n".intercalate lines)) (s.execEach lines)) := by
  have all := s.exec_join separate
  refine ⟨all, ?_⟩
  intro accepted
  rw [← execSkipping_eq_execEach accepted]
  exact all

/-- An error in one line and a term in the next. -/
theorem exec_intercalate_unclosed :
    SameEffect ((new {}).exec ("\n".intercalate ["(oops", "y"]))
      ((new {}).execEach ["(oops", "y"]) := by
  refine (exec_intercalate (new {}) (by decide)).2 ?_
  rw [List.dropLast_cons_cons, List.dropLast_singleton, execEach_cons, execEach, List.append_nil]
  exact exec_unclosed (new {})

/-- A refused term in one line and a term in the next: there is one reply instead of two. -/
theorem exec_skips_line :
    Reachable (new {}) ∧
      (∀ line ∈ ["(\\x. x x x) (\\x. x x x)", "y"], '\n' ∉ line.toList) ∧
      ((new {}).exec ("\n".intercalate ["(\\x. x x x) (\\x. x x x)", "y"])).1.length = 1 ∧
      ((new {}).execEach ["(\\x. x x x) (\\x. x x x)", "y"]).1.length = 2 := by
  have separate : ∀ line ∈ ["(\\x. x x x) (\\x. x x x)", "y"], '\n' ∉ line.toList := by decide
  refine ⟨.new {}, separate, ?_, ?_⟩
  · have joined := congrArg List.length ((new {}).exec_join separate).replies
    rw [List.length_map, List.length_map, execSkipping_cons, exec_loop] at joined
    exact joined
  · rw [execEach_cons, execEach_cons, execEach, List.append_nil, List.length_append, exec_loop,
      exec_y, List.length_singleton]

end UntypedLambda.Session
