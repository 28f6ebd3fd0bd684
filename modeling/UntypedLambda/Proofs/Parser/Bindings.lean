import UntypedLambda.Proofs.Parser.Lines

/-! # A term alone and behind a name

A line of source is cut into the same tokens behind `name = ` as alone, and read as the same
term.  A text that is a single term has to pass the guard against a literal loop as well, which
a definition in a statement is not put to.

Main statements: `Parser.parseTerm_line`, `Parser.next_binding`. -/
set_option autoImplicit false

namespace UntypedLambda

namespace Token

/-- Kind and lexeme are the same, the place may be another. -/
structure Spelled (a b : Token) : Prop where
  kind : a.kind = b.kind
  lexeme : a.lexeme = b.lexeme

theorem spelled_pieces (line col : Nat) (source : List Char) : ∀ line' col',
    List.Forall₂ Spelled ((pieces line col source).filterMap Piece.token?)
      ((pieces line' col' source).filterMap Piece.token?) := by
  induction line, col, source using pieces.induct with
  | case1 line col =>
      intro line' col'
      rw [pieces, pieces]
      exact .nil
  | case2 line col c rest letter run ih =>
      intro line' col'
      rw [pieces_letter letter, pieces_letter letter]
      exact .cons ⟨rfl, rfl⟩ (ih line' _)
  | case3 line col rest _ ih =>
      intro line' col'
      rw [pieces_newline, pieces_newline]
      exact .cons ⟨rfl, rfl⟩ (ih (line' + 1) 1)
  | case4 line col rest _ run _ ih =>
      intro line' col'
      rw [pieces_comment, pieces_comment]
      exact ih line' _
  | case5 line col c rest _ _ _ blank ih =>
      intro line' col'
      rw [pieces_blank blank, pieces_blank blank]
      exact ih line' _
  | case6 line col c rest _ _ _ _ kind mark ih =>
      intro line' col'
      rw [pieces_mark mark, pieces_mark mark]
      exact .cons ⟨rfl, rfl⟩ (ih line' _)
  | case7 line col c rest notLetter notNewline notComment notBlank noMark ih =>
      intro line' col'
      have bad := pieces_bad notLetter notNewline notComment notBlank noMark
      rw [bad, bad]
      exact ih line' _

theorem newline_not_mem_of_isWord {name : String} (isWord : IsWord name) :
    '\n' ∉ name.toList := by
  obtain ⟨first, later⟩ := isWord
  cases chars : name.toList with
  | nil => exact List.not_mem_nil
  | cons c run =>
      rw [chars] at first later
      intro member
      rcases List.mem_cons.mp member with same | inside
      · rw [← same] at first
        cases first
      · exact absurd (List.all_eq_true.mp later _ inside) (by decide)

/-- `name = ` in front of a line adds a name and an equals sign. -/
theorem lineTokens_binding {name : String} (identifier : IsIdentifier name) (source : List Char) :
    ∃ head equals line, lineTokens 1 (name.toList ++ ' ' :: '=' :: ' ' :: source) =
        head :: equals :: line ∧
      head.kind = .ident ∧ head.lexeme = name ∧ equals.kind = .equals ∧
      List.Forall₂ Spelled (lineTokens 1 source) line := by
  have ends : WordEnds (' ' :: '=' :: ' ' :: source) := wordEnds_cons (by decide) _
  have blank : isBlank ' ' = true := rfl
  have mark : mark? '=' = some .equals := rfl
  refine ⟨word name.toList 1 1, covering .equals ['='] 1 (1 + name.toList.length + 1), _,
    ?_, ?_, ?_, rfl, spelled_pieces 1 1 source 1 (1 + name.toList.length + 1 + 1 + 1)⟩
  · rw [lineTokens, pieces_word identifier.1 ends, pieces_blank blank, pieces_mark mark,
      pieces_blank blank]
    rfl
  · rw [word, String.ofList_toList]
    exact ofWord_eq_ident_iff.mpr identifier.2
  · exact String.ofList_toList

theorem scan_binding {name source : String} (identifier : IsIdentifier name)
    (one : '\n' ∉ source.toList) :
    ∃ head equals line newline eof,
      (scan (name ++ " = " ++ source)).tokens = head :: equals :: line ++ [newline, eof] ∧
      head.kind = .ident ∧ head.lexeme = name ∧ equals.kind = .equals ∧
      newline.kind = .newline ∧ eof.kind = .eof ∧
      (∀ token ∈ head :: equals :: line, Inner token) ∧
      List.Forall₂ Spelled (scan source).tokens (line ++ [newline, eof]) := by
  have joined : (name ++ " = " ++ source).toList =
      name.toList ++ ' ' :: '=' :: ' ' :: source.toList := by
    have between : " = ".toList = [' ', '=', ' '] := rfl
    rw [String.toList_append, String.toList_append, between, List.append_assoc]
    rfl
  have whole : '\n' ∉ (name ++ " = " ++ source).toList := by
    have before := newline_not_mem_of_isWord identifier.1
    simp [joined, before, one]
  obtain ⟨head, equals, line, cut, isIdent, lexeme, isEquals, spelled⟩ :=
    lineTokens_binding identifier source.toList
  have inner : ∀ token ∈ head :: equals :: line, Inner token := by
    rw [← cut, ← joined]
    exact fun token => inner_of_mem_lineTokens whole
  have tokens := scan_line whole
  rw [joined, cut] at tokens
  refine ⟨head, equals, line, _, _, tokens, isIdent, lexeme, isEquals, rfl, rfl, inner, ?_⟩
  rw [scan_line one]
  exact List.rel_append spelled (.cons ⟨rfl, rfl⟩ (.cons ⟨rfl, rfl⟩ .nil))

end Token

open Token

theorem indistinct_spelled : Indistinct ParseError.cause Spelled where
  missing := ⟨rfl, rfl⟩
  kind := Spelled.kind
  lexeme := fun spelled _ => spelled.lexeme
  atToken := fun _ _ => rfl

namespace Parser

theorem next_statement {p : Parser} (front : skipNewlines p.tokens = p.tokens)
    (more : p.done = false) : p.next.1 = p.statement.1.map some ∧
      p.next.2.nextId = p.statement.2.nextId := by
  obtain ⟨tokens, next⟩ := p
  dsimp only at front
  rw [done, skipped, front] at more
  unfold Parser.next
  dsimp only
  rw [front, more]
  obtain ⟨result, q⟩ := Parser.statement ⟨tokens, next⟩
  cases result <;> exact ⟨rfl, rfl⟩

section
variable {line : List Token} {newline eof : Token} (isNewline : newline.kind = .newline)
  (isEof : eof.kind = .eof)
include isNewline isEof

/-- A line of its own is read as a single term just like the rest of a statement, and the guard
comes on top. -/
theorem parseTerm_line (inner : ∀ token ∈ line, Inner token) (form : Form) (next : Int) :
    let p : Parser := ⟨line ++ [newline, eof], next⟩
    p.parseTerm.2.nextId = (termLine form p).2.nextId ∧
    (∀ t, (termLine form p).1 = .ok t →
      p.parseTerm.1 = if t.isNonTerminating then .error .nonTerminating else .ok t) ∧
    (∀ e, (termLine form p).1 = .error e →
      ∃ e', p.parseTerm.1 = .error e' ∧ e' ≠ .nonTerminating) := by
  intro p
  cases line with
  | nil =>
      have alone : p.parseTerm = (.error (.atToken eof .noExpression), ⟨[eof], next⟩) := by
        simp [p, parseTerm, skipNewlines, atEnd, peek, isNewline, isEof]
      have behind : termLine form p = (.error (.atToken newline .noExpression), p) := by
        simp [p, termLine, Reading.start, Reading.run, Reading.step, isNewline]
      rw [alone, behind]
      refine ⟨rfl, ?_, fun e _ => ⟨_, rfl, fun same => ?_⟩⟩
      · rintro t ⟨⟩
      · cases congrArg ParseError.cause same
  | cons token line =>
      obtain ⟨result, left, number, within, other, read⟩ :=
        (Reading.start next).run_line (token :: line) isNewline
      have front : skipNewlines (token :: line ++ [newline, eof]) =
          token :: line ++ [newline, eof] := skipNewlines_line inner [eof]
      have begun : atEnd (token :: line ++ [newline, eof]) = false := by
        simp [atEnd, peek, (inner token List.mem_cons_self).2]
      simp only [p, parseTerm, termLine, front, begun, read [eof], Bool.false_eq_true, if_false]
      cases result with
      | error e =>
          refine ⟨rfl, ?_, fun _ _ => ⟨e, rfl, fun same => ?_⟩⟩
          · rintro t ⟨⟩
          · exact other e rfl (congrArg ParseError.cause same)
      | ok t =>
          cases left with
          | nil =>
              have last : skipNewlines [newline, eof] = [eof] := by
                simp [skipNewlines, isNewline, isEof]
              simp only [List.nil_append, peek, List.headD_cons, isNewline, ne_eq,
                not_true_eq_false, if_false, last, atEnd, isEof, beq_self_eq_true, Bool.not_true,
                Bool.false_eq_true, endLine, if_true]
              refine ⟨?_, ?_, ?_⟩
              · split <;> rfl
              · rintro _ ⟨⟩
                split <;> rfl
              · rintro e ⟨⟩
          | cons first left =>
              have notNewline := (inner first (within.subset List.mem_cons_self)).1
              simp only [List.cons_append, peek, List.headD_cons, ne_eq, notNewline,
                not_false_eq_true, if_true, endLine, if_false, true_and]
              refine ⟨?_, fun _ _ => ⟨_, rfl, fun same => ?_⟩⟩
              · rintro t ⟨⟩
              · cases congrArg ParseError.cause same

theorem next_binding {head equals : Token} (isIdent : head.kind = .ident)
    (isEquals : equals.kind = .equals)
    (inner : ∀ token ∈ head :: equals :: line, Inner token) (next : Int) :
    let p : Parser := ⟨head :: equals :: line ++ [newline, eof], next⟩
    let body := termLine .binding ⟨line ++ [newline, eof], next⟩
    p.next.1 = body.1.map (some ∘ Statement.binding head.lexeme) ∧
      p.next.2.nextId = body.2.nextId ∧ p.done = false ∧ p.next.2.done = true := by
  intro p body
  have more : p.done = false := done_line inner [eof] next
  have ended : p.next.2.done = true := by
    obtain ⟨found, number, read⟩ := next_line isNewline inner next
    have taken : p.next = _ := read [eof]
    rw [taken, synchronize_eof isEof, ite_self]
    exact done_eof isEof _
  have statement : p.statement = (body.1.map (Statement.binding head.lexeme), body.2) :=
    statement_binding isIdent isEquals
  obtain ⟨found, number⟩ := next_statement (skipNewlines_line inner [eof]) more
  rw [statement] at found number
  refine ⟨found.trans ?_, number, more, ended⟩
  cases body.1 <;> rfl

end

/-- A definition by a line, and the text behind the equals sign on its own. -/
theorem next_binding_scan {name source : String} (identifier : IsIdentifier name)
    (one : '\n' ∉ source.toList) (next : Int) :
    let alone := parseTerm ⟨(scan source).tokens, next⟩
    let p : Parser := ⟨(scan (name ++ " = " ++ source)).tokens, next⟩
    p.next.2.nextId = alone.2.nextId ∧ p.done = false ∧ p.next.2.done = true ∧
    ((∃ t, p.next.1 = .ok (some (.binding name t)) ∧
        alone.1 = if t.isNonTerminating then .error .nonTerminating else .ok t) ∨
      ∃ e e', p.next.1 = .error e ∧ alone.1 = .error e' ∧ e' ≠ .nonTerminating) := by
  intro alone p
  obtain ⟨head, equals, line, newline, eof, tokens, isIdent, lexeme, isEquals, isNewline, isEof,
    inner, related⟩ := scan_binding identifier one
  have inner' : ∀ token ∈ lineTokens 1 source.toList, Inner token := fun token =>
    inner_of_mem_lineTokens one
  obtain ⟨same, number⟩ := termLine_indistinct indistinct_spelled related .binding next
  obtain ⟨found, readBehind, more, ended⟩ :=
    next_binding isNewline isEof isIdent isEquals inner next
  obtain ⟨readAlone, ok, error⟩ := @parseTerm_line _ (lineEnd source.toList)
    (sourceEnd source.toList) rfl rfl inner' .binding next
  rw [← scan_line one] at readAlone ok error
  rw [← tokens] at found readBehind more ended
  refine ⟨readBehind.trans (number.symm.trans readAlone.symm), more, ended, ?_⟩
  rcases mapError_eq_cases same with ⟨t, read, read'⟩ | ⟨e, e', read, read', _⟩
  · refine Or.inl ⟨t, ?_, ok t read⟩
    rw [found, read', lexeme]
    rfl
  · obtain ⟨e'', failed, other⟩ := error e read
    refine Or.inr ⟨e', e'', ?_, failed, other⟩
    rw [found, read']
    rfl

end Parser

end UntypedLambda
