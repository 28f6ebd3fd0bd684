import UntypedLambda.Proofs.Log.Quotes
import UntypedLambda.Proofs.Parser.Errors
import UntypedLambda.Proofs.Session.Parents
import UntypedLambda.Proofs.Token.Places

/-! # The text that an error points at

An error in reading is entered with its message, and the entry below quotes the line in question
with carets under what is wrong.  The place of the error was counted when the text was cut into
tokens, and the line is found by cutting the text at its newlines; the two fit.

Main statement: `errors_quoted`. -/
set_option autoImplicit false

namespace UntypedLambda

/-! ## What is told about errors in reading -/

def Error.parseError? (e : Error) : Option ParseError :=
  match e.cause with
  | .parse e => some e
  | _ => none

namespace Session

open Log (Note)

def Reply.parseError? (r : Reply) : Option ParseError :=
  match r.answer with
  | .failure e => e.parseError?
  | _ => none

/-- The errors in reading that the one who asks is told. -/
def Told.parseErrors : Told → List ParseError
  | .defined (.error e) => e.parseError?.toList
  | .executed replies => replies.filterMap Reply.parseError?
  | .evaluated (.error e) => e.parseError?.toList
  | _ => []

/-- The text that is read in the course of a call. -/
def Call.source? : Call → Option String
  | .define _ source => some source
  | .exec source => some source
  | .evaluate input => some input
  | _ => none

/-- The entries that the log still has after a call: a definition adds to them, all else begins
with none. -/
def kept (s : Session) : Call → List Entry
  | .define _ _ => s.log.entries.toList
  | _ => []

/-- All errors in reading but the guard against a literal loop, which is about no place in the
text. -/
def placed (errors : List ParseError) : List Error :=
  (errors.filter (decide <| · ≠ .nonTerminating)).map .parse

theorem placed_append (errors more : List ParseError) :
    placed (errors ++ more) = placed errors ++ placed more := by
  rw [placed, List.filter_append, List.map_append, placed, placed]

/-- All characters that start no token, and all errors in reading that are about a place. -/
def placedErrors (source : String) (told : Told) : List Error :=
  (Token.scan source).errors.map .lex ++ placed told.parseErrors

/-! ## Notes that quote -/

/-- The log quotes this text. -/
def Quoting (source : String) (log : Log) : Prop := log.source = Text.lines source

section
variable {source : String} {log : Log} (quoting : Quoting source log)
include quoting

theorem sourceLine?_of_quoting {i : Nat} {text : List Char}
    (found : (Text.splitAt '\n' source.toList)[i]? = some text) :
    log.sourceLine? (1 + i : Nat) = some (String.ofList text) := by
  have line : (Text.lines source)[i]? = some (String.ofList text) := by
    rw [Text.lines, List.getElem?_map, found]
    rfl
  have index : (((1 + i : Nat) : Int) - 1).toNat = i := by omega
  rw [Log.sourceLine?, if_neg (by omega), index, quoting, line]

theorem quotes?_lex {e : LexError} (member : e ∈ (Token.scan source).errors) :
    Note.quotes? log (.error (.lex e)) = some (.lex e) := by
  obtain ⟨i, text, before, after, found, _, same⟩ := Token.exists_line_of_mem_errors member
  have line : e.line = (1 + i : Nat) := congrArg LexError.line same
  have quoted : log.place? (.lex e) = (log.sourceLine? e.line).map (·, e.location) := rfl
  rw [Note.quotes?, quoted, line, sourceLine?_of_quoting quoting found]
  rfl

theorem quotes?_parse {e : ParseError}
    (known : e = .nonTerminating ∨ e.Among (Token.scan source).tokens) :
    Note.quotes? log (.error (.parse e)) =
      if e = .nonTerminating then none else some (.parse e) := by
  have quoted : log.place? (.parse e) = (log.sourceLine? e.location.line).map (·, e.location) := rfl
  rw [Note.quotes?, quoted]
  rcases known with rfl | ⟨token, member, cause, rfl⟩
  · rfl
  · obtain ⟨i, text, found, standing⟩ := Token.standing_of_mem_scan member
    have line : token.line = (1 + i : Nat) := by
      cases standing with
      | within before part after cut inner nonempty same => rw [same]; rfl
      | behind ends isLine isBehind => exact isLine
    have place : (ParseError.atToken token cause).location.line = (1 + i : Nat) := line
    have other : ParseError.atToken token cause ≠ .nonTerminating := by
      intro same
      have zero : (ParseError.atToken token cause).location.line = 0 := by rw [same]; rfl
      omega
    rw [place, sourceLine?_of_quoting quoting found, if_neg other]
    rfl

theorem filterMap_scanNotes :
    (scanNotes source).filterMap (Note.quotes? log) = (Token.scan source).errors.map .lex := by
  rw [scanNotes, List.filterMap_map, ← List.filterMap_eq_map]
  exact List.filterMap_congr fun e member => quotes?_lex quoting member

end

/-- Work that is not finished is no error in reading and has no place. -/
theorem unplaced_of_mapError {r : Except Stop Term} {atHole : WalkError} {e : Error}
    (failed : r.mapError (Stop.toError atHole) = .error e) :
    e.location? = none ∧ e.parseError? = none := by
  cases r with
  | ok t => cases failed
  | error stop =>
      cases failed
      obtain ⟨cause, reached⟩ := stop
      cases cause <;> exact ⟨rfl, rfl⟩

theorem quotes?_of_unplaced {log : Log} {e : Error} (unplaced : e.location? = none) :
    Note.quotes? log (.error e) = none := by
  have nowhere : log.place? e = none := by rw [Log.place?, unplaced]
  rw [Note.quotes?, nowhere]
  rfl

theorem parseError?_fail (s : Session) (e : Error) :
    (s.fail e).1.parseError? = e.parseError? := by
  unfold fail
  dsimp only
  split
  · rfl
  · rfl

section
variable (s : Session) (log : Log)

theorem parseError?_reduce {t : Term} {e : Error} (failed : (s.reduce t).1 = .error e) :
    e.parseError? = none := by
  unfold reduce at failed
  dsimp only at failed
  split at failed
  · cases failed
  · rename_i stopped
    cases failed
    rw [parseError?_fail]
    exact (unplaced_of_mapError stopped).2

theorem parseError?_evaluateTerm {t : Term} {e : Error}
    (failed : (s.evaluateTerm t).result = .error e) : e.parseError? = none := by
  unfold evaluateTerm at failed
  dsimp only at failed
  split at failed
  · exact parseError?_reduce _ failed
  · rename_i stopped
    cases failed
    rw [parseError?_fail]
    exact (unplaced_of_mapError stopped).2

theorem quotes?_reduceNotes (t : Term) : ∀ n ∈ s.reduceNotes t, n.quotes? log = none ∧ n.Plain := by
  intro n member
  unfold reduceNotes Note.ofReduction at member
  dsimp only at member
  rcases List.mem_append.mp member with step | last
  · obtain ⟨e, _, rfl⟩ := List.mem_map.mp step
    exact ⟨rfl, trivial⟩
  · split at last <;> cases List.mem_singleton.mp last
    · exact ⟨rfl, trivial⟩
    · rename_i stopped
      exact ⟨quotes?_of_unplaced (unplaced_of_mapError stopped).1, trivial⟩

theorem quotes?_termNotes (t : Term) : ∀ n ∈ s.termNotes t, n.quotes? log = none ∧ n.Plain := by
  intro n member
  unfold termNotes Note.ofExpansion at member
  dsimp only at member
  rcases List.mem_cons.mp member with rfl | later
  · exact ⟨rfl, trivial⟩
  · rcases List.mem_append.mp later with step | last
    · rcases List.mem_append.mp step with unfolded | summary
      · obtain ⟨u, _, rfl⟩ := List.mem_map.mp unfolded
        exact ⟨rfl, trivial⟩
      · obtain ⟨t, _, rfl⟩ := List.mem_map.mp summary
        exact ⟨rfl, trivial⟩
    · split at last
      · exact quotes?_reduceNotes s log _ n last
      · rename_i stopped
        cases List.mem_singleton.mp last
        exact ⟨quotes?_of_unplaced (unplaced_of_mapError stopped).1, trivial⟩

theorem filterMap_termNotes (t : Term) : (s.termNotes t).filterMap (Note.quotes? log) = [] :=
  List.filterMap_eq_nil_iff.mpr fun n member => (quotes?_termNotes s log t n member).1

theorem plain_readNotes (source : String) : ∀ n ∈ s.readNotes source, n.Plain := by
  intro n member
  unfold readNotes scanNotes at member
  rcases List.mem_append.mp member with lex | parse
  · obtain ⟨e, _, rfl⟩ := List.mem_map.mp lex
    trivial
  · split at parse
    · cases parse
    · cases List.mem_singleton.mp parse
      trivial

end

/-- The error that reading ended with. -/
def failure? {α : Type} : Except ParseError α → Option ParseError
  | .ok _ => none
  | .error e => some e

theorem placed_singleton (e : ParseError) :
    placed [e] = (if e = .nonTerminating then none else some (.parse e) : Option Error).toList := by
  unfold placed
  by_cases guard : e = .nonTerminating <;> simp [guard]

theorem filterMap_readNotes {source : String} {log : Log} (quoting : Quoting source log)
    (s : Session) : (s.readNotes source).filterMap (Note.quotes? log) =
      (Token.scan source).errors.map .lex ++ placed (failure? (s.read source).1).toList := by
  rw [readNotes, List.filterMap_append, filterMap_scanNotes quoting]
  congr 1
  cases read : (s.read source).1 with
  | ok t => rfl
  | error e =>
      rw [read_eq] at read
      have known := Parser.error_of_parseTerm (Parser.closed_scan source) read
      rw [failure?, Option.toList_some, placed_singleton, ← quotes?_parse quoting known, List.filterMap_cons]
      cases Note.quotes? log (.error (.parse e)) <;> rfl

/-! ## Statements -/

theorem plain_nextNotes (s : Session) (found : Except ParseError (Option Statement)) :
    ∀ n ∈ s.nextNotes found, n.Plain := by
  intro n member
  rcases found with e | _ | st
  · cases List.mem_singleton.mp member
    trivial
  · cases member
  · cases st with
    | term t => exact (quotes?_termNotes s s.log t n member).2
    | binding name t =>
        cases List.mem_singleton.mp member
        trivial
    | command c =>
        cases List.mem_singleton.mp member
        trivial

/-- Evaluation tells of no error in reading. -/
theorem parseError?_execNext (s : Session) (found : Except ParseError (Option Statement)) :
    (s.execNext found).1.bind Reply.parseError? = failure? found := by
  rcases found with e | _ | st
  · rfl
  · rfl
  · cases st with
    | term t =>
        cases result : (s.evaluateTerm t).result with
        | ok u => simp [execNext, execStatement, result, Reply.parseError?, failure?]
        | error e =>
            have other := parseError?_evaluateTerm s result
            simp [execNext, execStatement, result, Reply.parseError?, other, failure?]
    | binding name t => rfl
    | command c => rfl

theorem filterMap_nextNotes {source : String} {log : Log} (quoting : Quoting source log)
    (s : Session) {found : Except ParseError (Option Statement)}
    (known : ∀ e, found = .error e → e = .nonTerminating ∨ e.Among (Token.scan source).tokens) :
    (s.nextNotes found).filterMap (Note.quotes? log) = placed (failure? found).toList := by
  rcases found with e | _ | st
  · rw [failure?, Option.toList_some, placed_singleton, ← quotes?_parse quoting (known e rfl), nextNotes,
      List.filterMap_cons]
    cases Note.quotes? log (.error (.parse e)) <;> rfl
  · rfl
  · cases st with
    | term t => exact filterMap_termNotes s log t
    | binding name t => rfl
    | command c => rfl

theorem plain_allNotes (s : Session) (p : Parser) : ∀ n ∈ s.allNotes p, n.Plain := by
  induction s, p using allNotes.induct with
  | case1 s p atLast =>
      rw [allNotes_of_done atLast]
      intro n member
      cases member
  | case2 s p atLast _ ih =>
      have more : p.done = false := Bool.eq_false_iff.mpr atLast
      rw [allNotes_of_next more]
      intro n member
      rcases List.mem_append.mp member with next | later
      · exact plain_nextNotes s _ n next
      · exact ih n later

/-- Along the statements, the notes quote just the errors in reading among the replies. -/
theorem filterMap_allNotes {source : String} {log : Log} (quoting : Quoting source log)
    (s : Session) {p : Parser} (closed : Parser.Closed p.tokens)
    (part : p.tokens <:+ (Token.scan source).tokens) :
    (s.allNotes p).filterMap (Note.quotes? log) =
      placed ((s.execAll p).1.filterMap Reply.parseError?) := by
  induction s, p using allNotes.induct with
  | case1 s p atLast =>
      rw [allNotes_of_done atLast, execAll_of_done atLast]
      rfl
  | case2 s p atLast _ ih =>
      have more : p.done = false := Bool.eq_false_iff.mpr atLast
      have stops := Parser.stops_next closed
      have known : ∀ e, p.next.1 = .error e →
          e = .nonTerminating ∨ e.Among (Token.scan source).tokens := fun e failed =>
        (stops.error e failed).imp_right fun among => among.of_suffix part
      rw [allNotes_of_next more, execAll_of_next more, List.filterMap_append,
        filterMap_nextNotes quoting s known, ← parseError?_execNext s,
        ih stops.closed (stops.suffix.trans part), List.filterMap_append, ← placed_append]
      cases (s.execNext p.next.1).1 with
      | none => rfl
      | some r => cases found : r.parseError? <;> simp [found]

/-- The errors in reading among the replies are about the tokens. -/
theorem among_of_mem_execAll (s : Session) {p : Parser} (closed : Parser.Closed p.tokens)
    {e : ParseError} (member : e ∈ (s.execAll p).1.filterMap Reply.parseError?) :
    e = .nonTerminating ∨ e.Among p.tokens := by
  induction s, p using allNotes.induct with
  | case1 s p atLast =>
      rw [execAll_of_done atLast] at member
      cases member
  | case2 s p atLast _ ih =>
      have more : p.done = false := Bool.eq_false_iff.mpr atLast
      have stops := Parser.stops_next closed
      have next := parseError?_execNext s p.next.1
      rw [execAll_of_next more, List.filterMap_append, List.mem_append] at member
      rcases member with first | later
      · obtain ⟨r, reply, failed⟩ := List.mem_filterMap.mp first
        rw [Option.mem_toList.mp reply, Option.bind_some, failed] at next
        cases found : p.next.1 with
        | ok st => simp [found, failure?] at next
        | error e' =>
            rw [found, failure?, Option.some.injEq] at next
            exact stops.error e (next ▸ found)
      · exact (ih stops.closed later).imp_right fun among => among.of_suffix stops.suffix

/-! ## Calls -/

/-- What a call is answered does not depend on the log. -/
theorem fst_eq_of_relog {α : Type} {f : Session → α × Session} {result : α × Session}
    {notes : List Note} (s : Session)
    (each : ∀ v log, f (s.relog v log) = (result.1, result.2.relog v (log.writeAll notes))) :
    (f s).1 = result.1 := by
  have own := each s.options.verbosity s.log
  rw [relog_self] at own
  rw [own]

section
variable (s : Session) (source : String)

theorem parseErrors_define (name : String) :
    (s.answer (.call (.define name source))).1.parseErrors =
      (failure? (s.read source).1).toList := by
  have told : (s.answer (.call (.define name source))).1 = .defined (s.defined name source).1 :=
    congrArg Told.defined (@fst_eq_of_relog _ (·.define name source) _ _ s fun v log =>
      relog_define s v log name source)
  rw [told, defined]
  generalize s.read source = found
  obtain ⟨e | t, after⟩ := found <;> rfl

theorem parseErrors_evaluate : (s.answer (.call (.evaluate source))).1.parseErrors =
    (failure? (s.read source).1).toList := by
  have told : (s.answer (.call (.evaluate source))).1 = .evaluated (s.evaluated source).1 :=
    congrArg Told.evaluated (@fst_eq_of_relog _ (·.evaluate source) _ _ s fun v log =>
      relog_evaluate s v log source)
  rw [told, evaluated]
  generalize s.read source = found
  obtain ⟨e | t, after⟩ := found
  · rfl
  · cases result : (after.evaluateTerm t).result with
    | ok u => simp [Told.parseErrors, result, failure?]
    | error e =>
        simp [Told.parseErrors, result, failure?, parseError?_evaluateTerm after result]

theorem parseErrors_exec : (s.answer (.call (.exec source))).1.parseErrors =
    (s.execAll ⟨(Token.scan source).tokens, s.nextId⟩).1.filterMap Reply.parseError? := by
  have told : (s.answer (.call (.exec source))).1 =
      .executed (s.execAll ⟨(Token.scan source).tokens, s.nextId⟩).1 :=
    congrArg Told.executed (@fst_eq_of_relog _ (·.exec source) _ _ s fun v log =>
      relog_exec s v log source)
  rw [told, Told.parseErrors]

theorem among_of_mem_failure {e : ParseError} (member : e ∈ (failure? (s.read source).1).toList) :
    e = .nonTerminating ∨ e.Among (Token.scan source).tokens := by
  cases read : (s.read source).1 with
  | ok t =>
      rw [read] at member
      cases member
  | error e' =>
      rw [read] at member
      cases List.mem_singleton.mp member
      rw [read_eq] at read
      exact Parser.error_of_parseTerm (Parser.closed_scan source) read

/-- Behind the reading, an evaluation notes nothing that quotes. -/
theorem exists_evaluateNotes (log : Log) : ∃ rest : List Note, s.evaluateNotes source =
      [.clear, .source source, .input (echo source)] ++ s.readNotes source ++ rest ∧
    rest.filterMap (Note.quotes? log) = [] ∧ ∀ n ∈ rest, n.Plain := by
  refine ⟨_, rfl, ?_⟩
  split
  · exact ⟨filterMap_termNotes _ log _, fun n member => (quotes?_termNotes _ log _ n member).2⟩
  · exact ⟨rfl, by simp⟩

end

/-- A call writes these notes to a log that quotes the text of the call, and they quote just the
errors that are told. -/
structure Start (s : Session) (c : Call) (source : String) (log : Log) (notes : List Note) :
    Prop where
  written : (s.answer (.call c)).2.log = log.writeAll notes
  unlimited : log.capacity = 0
  quoting : Quoting source log
  entries : log.entries.toList = s.kept c
  plain : ∀ n ∈ notes, n.Plain
  quotes : notes.filterMap (Note.quotes? log) = placedErrors source (s.answer (.call c)).1
  among : ∀ e ∈ (s.answer (.call c)).1.parseErrors,
    e = .nonTerminating ∨ e.Among (Token.scan source).tokens

section
variable (s : Session) (unlimited : s.log.capacity = 0) (source : String)
include unlimited

theorem start_define (name : String) :
    s.Start (.define name source) source (s.log.setSource source) (s.readNotes source) := by
  have quoting : Quoting source (s.log.setSource source) := rfl
  refine ⟨log_answer s _, unlimited, quoting, rfl, s.plain_readNotes source, ?_, ?_⟩
  · rw [filterMap_readNotes quoting, placedErrors, parseErrors_define]
  · rw [parseErrors_define]
    exact fun e => s.among_of_mem_failure source

theorem start_exec : s.Start (.exec source) source (s.log.clear.setSource source)
    (scanNotes source ++ s.allNotes ⟨(Token.scan source).tokens, s.nextId⟩) := by
  have quoting : Quoting source (s.log.clear.setSource source) := rfl
  have closed := Parser.closed_scan source
  refine ⟨log_answer s _, unlimited, quoting, rfl, ?_, ?_, ?_⟩
  · intro n member
    rcases List.mem_append.mp member with lex | later
    · obtain ⟨e, _, rfl⟩ := List.mem_map.mp lex
      trivial
    · exact s.plain_allNotes _ n later
  · rw [List.filterMap_append, filterMap_scanNotes quoting,
      filterMap_allNotes quoting s closed List.suffix_rfl, placedErrors, parseErrors_exec]
  · rw [parseErrors_exec]
    exact fun e => among_of_mem_execAll s closed

theorem start_evaluate : ∃ notes,
    s.Start (.evaluate source) source (s.log.clear.setSource source) notes := by
  have quoting : Quoting source (s.log.clear.setSource source) := rfl
  obtain ⟨rest, noted, nothing, plain⟩ :=
    s.exists_evaluateNotes source (s.log.clear.setSource source)
  have written : (s.answer (.call (.evaluate source))).2.log =
      (s.log.clear.setSource source).writeAll
        (.input (echo source) :: (s.readNotes source ++ rest)) := by
    have log := log_answer s (.call (.evaluate source))
    rwa [notes, noted] at log
  refine ⟨_, written, unlimited, quoting, rfl, ?_, ?_, ?_⟩
  · intro n member
    rcases List.mem_cons.mp member with rfl | later
    · trivial
    · rcases List.mem_append.mp later with read | behind
      · exact s.plain_readNotes source n read
      · exact plain n behind
  · have echoed : Note.quotes? (s.log.clear.setSource source) (.input (echo source)) = none := rfl
    rw [List.filterMap_cons_none echoed, List.filterMap_append, filterMap_readNotes quoting,
      nothing, List.append_nil, placedErrors, parseErrors_evaluate]
  · rw [parseErrors_evaluate]
    exact fun e => s.among_of_mem_failure source

/-- The log that a call begins with quotes the text of the call. -/
theorem exists_start {c : Call} (given : c.source? = some source) :
    ∃ log notes, s.Start c source log notes := by
  cases c with
  | command c => cases given
  | setOptions options => cases given
  | define name source' =>
      cases given
      exact ⟨_, _, s.start_define unlimited source name⟩
  | exec source' =>
      cases given
      exact ⟨_, _, s.start_exec unlimited source⟩
  | evaluate input =>
      cases given
      exact ⟨_, s.start_evaluate unlimited source⟩

end

/-! ## What the carets are under -/

/-- What an error points at, in a line with spaces and carets below: a character that starts no
token; the lexeme of a token; or the end of the line, from right behind it. -/
def PointsAt (source : String) (line : String) (spaces carets : Nat) : Error → Prop
  | .lex e => Log.above line.toList (Log.row spaces carets) = [e.char]
  | .parse e => ∃ token ∈ (Token.scan source).tokens, e = .atToken token e.cause ∧
      if token.kind = .newline ∨ token.kind = .eof then spaces = line.length
      else Log.above line.toList (Log.row spaces carets) = token.lexeme.toList
  | _ => False

/-- The upper entry has the message of the error.  The lower one quotes the line of its place,
with spaces up to its column and carets from there on. -/
structure QuotedBelow (source : String) (e : Error) (pair : Entry × Entry) : Prop where
  upper : pair.1.kind = .error ∧ pair.1.parent = 0 ∧ pair.1.message = e.message
  lower : pair.2.kind = .error ∧ pair.2.parent = pair.1.id
  quote : ∃ (loc : Location) (i spaces carets : Nat) (line : String), e.location? = some loc ∧
    loc.line = (1 + i : Nat) ∧ loc.col = (1 + spaces : Nat) ∧ 0 < carets ∧
    (Text.lines source)[i]? = some line ∧
    pair.2.message = line ++ "\n" ++ String.ofList (Log.row spaces carets) ∧
    PointsAt source line spaces carets e

theorem quotedBelow_of_reported {source : String} {e : Error} {pair : Entry × Entry}
    (reported : Log.Reported (Text.lines source) e pair)
    (known : ∀ (loc : Location) (i : Nat) (text : List Char), e.location? = some loc →
      loc.line = (1 + i : Nat) → (Text.splitAt '\n' source.toList)[i]? = some text →
      ∃ spaces : Nat, loc.col = (1 + spaces : Nat) ∧
        PointsAt source (String.ofList text) spaces (Log.carets loc) e) :
    QuotedBelow source e pair := by
  obtain ⟨upper, lower, loc, i, line, located, number, found, message⟩ := reported
  rw [Text.lines, List.getElem?_map] at found
  obtain ⟨text, isText, rfl⟩ := Option.map_eq_some_iff.mp found
  obtain ⟨spaces, column, points⟩ := known loc i text located number isText
  have quoted : (Text.lines source)[i]? = some (String.ofList text) := by
    rw [Text.lines, List.getElem?_map, isText]
    rfl
  refine ⟨upper, lower, loc, i, spaces, Log.carets loc, String.ofList text, located, number,
    column, Log.carets_pos loc, quoted, ?_, points⟩
  have width : (loc.col - 1).toNat = spaces := by omega
  rw [message, Log.caret_eq, width]

theorem quotedBelow_lex {source : String} {e : LexError} (member : e ∈ (Token.scan source).errors)
    {pair : Entry × Entry} (reported : Log.Reported (Text.lines source) (.lex e) pair) :
    QuotedBelow source (.lex e) pair := by
  apply quotedBelow_of_reported reported
  intro loc i text located number isText
  obtain ⟨j, text', before, after, isText', cut, same⟩ := Token.exists_line_of_mem_errors member
  cases located
  have line : e.line = (1 + j : Nat) := congrArg LexError.line same
  have column : e.col = (1 + before.length : Nat) := congrArg LexError.col same
  have index : i = j := by
    have : e.line = (1 + i : Nat) := number
    omega
  subst index
  rw [isText] at isText'
  cases isText'
  refine ⟨before.length, column, ?_⟩
  have one : Log.carets e.location = [e.char].length := rfl
  rw [PointsAt, String.toList_ofList, cut, one]
  exact Log.above_row before [e.char] after

theorem quotedBelow_parse {source : String} {e : ParseError}
    (among : e.Among (Token.scan source).tokens) {pair : Entry × Entry}
    (reported : Log.Reported (Text.lines source) (.parse e) pair) :
    QuotedBelow source (.parse e) pair := by
  apply quotedBelow_of_reported reported
  intro loc i text located number isText
  obtain ⟨token, member, cause, rfl⟩ := among
  obtain ⟨j, text', isText', standing⟩ := Token.standing_of_mem_scan member
  cases located
  have place : ∀ line : Int, token.line = line → line = (1 + j : Nat) → i = j := by
    intro line own same
    have : token.line = (1 + i : Nat) := number
    omega
  cases standing with
  | within before part after cut inner nonempty same =>
      have index : i = j := place _ rfl (by rw [same]; rfl)
      subst index
      rw [isText] at isText'
      cases isText'
      have column : token.start = (1 + before.length : Nat) := by rw [same]; rfl
      have lexeme : token.lexeme.toList = part := by
        rw [same]
        exact String.toList_ofList
      have carets : Log.carets token.location = part.length := by
        have length : token.location.length = (part.length : Nat) := by rw [same]; rfl
        have positive := List.length_pos_of_ne_nil nonempty
        have notEnd : token.location.atEnd = false := decide_eq_false inner.2
        rw [Log.carets, length, notEnd, if_neg Bool.false_ne_true]
        omega
      refine ⟨before.length, column, token, member, rfl, ?_⟩
      have other : ¬ (token.kind = .newline ∨ token.kind = .eof) := by
        rintro (newline | eof)
        · exact inner.1 newline
        · exact inner.2 eof
      rw [if_neg other, String.toList_ofList, cut, lexeme]
      have marked : (ParseError.atToken token cause).location = token.location := rfl
      rw [marked, carets]
      exact Log.above_row before part after
  | behind ends isLine isBehind =>
      have index : i = j := place _ isLine rfl
      subst index
      rw [isText] at isText'
      cases isText'
      refine ⟨text.length, isBehind, token, member, rfl, ?_⟩
      have last : token.kind = .newline ∨ token.kind = .eof := by
        by_contra other
        exact ends ⟨fun newline => other (Or.inl newline), fun eof => other (Or.inr eof)⟩
      rw [if_pos last, ← String.length_toList, String.toList_ofList]

/-- Reading, executing or defining in a session whose log has no limit enters every character
that starts no token and every error in reading that has a place, and quotes a line right below
each of them and nowhere else.  The lines are those of the text, cut at its newlines.  The carets
are under the character, or under the lexeme of the token that the error is about; where that
token is the end of a line or of the text they start right behind the line. -/
theorem errors_quoted {s : Session} (unlimited : s.log.capacity = 0) {c : Call} {source : String}
    (given : c.source? = some source) :
    ("\n".intercalate (Text.lines source) = source ∧
      ∀ line ∈ Text.lines source, '\n' ∉ line.toList) ∧
    ∃ added, (s.answer (.call c)).2.log.entries.toList = s.kept c ++ added ∧
      List.Forall₂ (QuotedBelow source) (placedErrors source (s.answer (.call c)).1)
        (Log.quoted added) := by
  refine ⟨Text.lines_eq source, ?_⟩
  obtain ⟨log, notes, start⟩ := s.exists_start unlimited source given
  obtain ⟨added, grown, _, reported⟩ := (Log.Quotes.writeAll start.unlimited start.plain).added
  refine ⟨added, by rw [start.written, grown, start.entries], ?_⟩
  rw [start.quotes, start.quoting] at reported
  have known : ∀ e ∈ placedErrors source (s.answer (.call c)).1, ∀ pair,
      Log.Reported (Text.lines source) e pair → QuotedBelow source e pair := by
    intro e member pair reported
    rcases List.mem_append.mp member with lex | parse
    · obtain ⟨e, scanned, rfl⟩ := List.mem_map.mp lex
      exact quotedBelow_lex scanned reported
    · obtain ⟨e, told, rfl⟩ := List.mem_map.mp parse
      obtain ⟨told, other⟩ := List.mem_filter.mp told
      exact quotedBelow_parse ((start.among e told).resolve_left (of_decide_eq_true other)) reported
  have both := (List.forall₂_and_left _ _).mpr ⟨known, reported⟩
  exact both.imp fun e pair held => held.1 pair held.2

/-- Its log has no limit, and still holds what was evaluated before. -/
def evaluatedBefore : Session := (unlimited.evaluate "(").2

/-- In its second line there is a character that starts no token, and a parenthesis is not
closed. -/
def unclosedText : String := "(λx.\n\ty é"

theorem read_unclosedText (s : Session) : (Token.scan unclosedText).errors = [⟨2, 4, 'é'⟩] ∧
    (s.read unclosedText).1 =
      .error (.atToken ⟨.newline, "\n", 1, 5, 1⟩ .noExpression) := by
  have scanned : Token.scan unclosedText =
      ⟨[⟨.lparen, "(", 1, 1, 1⟩, ⟨.lambda, "λ", 1, 2, 1⟩, ⟨.ident, "x", 1, 3, 1⟩,
        ⟨.dot, ".", 1, 4, 1⟩, ⟨.newline, "\n", 1, 5, 1⟩, ⟨.ident, "y", 2, 2, 1⟩,
        ⟨.newline, "<newline>", 2, 5, 0⟩, ⟨.eof, "", 2, 5, 0⟩], [⟨2, 4, 'é'⟩]⟩ := by
    decide +kernel
  rw [read_eq, scanned]
  exact ⟨rfl, rfl⟩

theorem placedErrors_unclosedText (s : Session) :
    placedErrors unclosedText (s.answer (.call (.define "k" unclosedText))).1 =
      [.lex ⟨2, 4, 'é'⟩, .parse (.atToken ⟨.newline, "\n", 1, 5, 1⟩ .noExpression)] := by
  obtain ⟨scanned, read⟩ := s.read_unclosedText
  rw [placedErrors, parseErrors_define, scanned, read]
  rfl

theorem errors_quoted_definition : evaluatedBefore.log.capacity = 0 ∧
    (Call.define "k" unclosedText).source? = some unclosedText ∧
    ("\n".intercalate (Text.lines unclosedText) = unclosedText ∧
      ∀ line ∈ Text.lines unclosedText, '\n' ∉ line.toList) ∧
    ∃ added, (evaluatedBefore.answer (.call (.define "k" unclosedText))).2.log.entries.toList =
        evaluatedBefore.log.entries.toList ++ added ∧
      List.Forall₂ (QuotedBelow unclosedText)
        [.lex ⟨2, 4, 'é'⟩, .parse (.atToken ⟨.newline, "\n", 1, 5, 1⟩ .noExpression)]
        (Log.quoted added) := by
  have noLimit : evaluatedBefore.log.capacity = 0 := by
    have log := log_answer unlimited (.call (.evaluate "("))
    have noted : unlimited.notes (.call (.evaluate "(")) = unlimited.evaluateNotes "(" := rfl
    rw [noted, evaluateNotes_unclosed] at log
    have same : evaluatedBefore.log = (unlimited.answer (.call (.evaluate "("))).2.log := rfl
    rw [same, log]
    rfl
  have given : (Call.define "k" unclosedText).source? = some unclosedText := rfl
  obtain ⟨lines, added, grown, quoted⟩ := errors_quoted noLimit given
  rw [placedErrors_unclosedText] at quoted
  exact ⟨noLimit, given, lines, added, grown, quoted⟩

end Session

end UntypedLambda
