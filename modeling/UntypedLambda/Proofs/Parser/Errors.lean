import UntypedLambda.Parser

/-! # Errors stand at tokens

Tokens with an end among them are never read beyond it.  So an error in reading is about one of
the tokens, unless it is the guard against a literal loop, which is about the whole term.

Main statements: `error_of_parseTerm`, `stops_next`. -/
set_option autoImplicit false

namespace UntypedLambda

/-- The error is about one of the tokens. -/
def ParseError.Among (tokens : List Token) (e : ParseError) : Prop :=
  ∃ token ∈ tokens, ∃ cause, e = .atToken token cause

theorem ParseError.Among.of_suffix {tokens rest : List Token} {e : ParseError}
    (among : e.Among rest) (part : rest <:+ tokens) : e.Among tokens := by
  obtain ⟨token, member, cause, same⟩ := among
  exact ⟨token, part.subset member, cause, same⟩

namespace Parser

/-- There is an end among the tokens. -/
def Closed (tokens : List Token) : Prop := ∃ token ∈ tokens, token.kind = .eof

theorem closed_scan (source : String) : Closed (Token.scan source).tokens := by
  unfold Token.scan Token.closing Closed
  dsimp only
  split
  · exact ⟨_, List.mem_append_right _ List.mem_cons_self, rfl⟩
  · exact ⟨_, List.mem_append_right _ (List.mem_cons_of_mem _ List.mem_cons_self), rfl⟩

namespace Closed

variable {tokens : List Token} (closed : Closed tokens)
include closed

theorem exists_cons : ∃ token rest, tokens = token :: rest := by
  obtain ⟨eof, member, _⟩ := closed
  exact List.exists_cons_of_ne_nil (List.ne_nil_of_mem member)

theorem peek_mem : peek tokens ∈ tokens := by
  obtain ⟨eof, member, _⟩ := closed
  cases tokens with
  | nil => cases member
  | cons token rest => exact List.mem_cons_self

theorem tail (more : (peek tokens).kind ≠ .eof) : Closed tokens.tail := by
  obtain ⟨eof, member, isEof⟩ := closed
  cases tokens with
  | nil => cases member
  | cons token rest =>
      rcases List.mem_cons.mp member with rfl | later
      · exact absurd isEof more
      · exact ⟨eof, later, isEof⟩

theorem skipNewlines : Closed (skipNewlines tokens) := by
  obtain ⟨eof, member, isEof⟩ := closed
  refine ⟨eof, ?_, isEof⟩
  rw [← List.takeWhile_append_dropWhile (p := (·.kind == .newline)) (l := tokens),
    List.mem_append] at member
  refine member.resolve_left fun front => ?_
  have newline := List.all_eq_true.mp List.all_takeWhile eof front
  simp [isEof] at newline

theorem synchronize : Closed (synchronize tokens) := by
  obtain ⟨eof, member, isEof⟩ := closed
  induction tokens with
  | nil => cases member
  | cons token rest ih =>
      unfold Parser.synchronize
      split
      · exact ⟨eof, member, isEof⟩
      · rename_i other
        have later : eof ∈ rest :=
          (List.mem_cons.mp member).resolve_left fun same => other (same ▸ isEof)
        split
        · exact ⟨eof, later, isEof⟩
        · exact ih later

end Closed

/-! ## One term -/

/-- The end is never taken. -/
theorem step_ne_shift_of_eof {token : Token} (isEof : token.kind = .eof) (r r' : Reading) :
    r.step token ≠ .shift r' := by
  obtain ⟨frames, phase, next⟩ := r
  have finished : ∀ t, Reading.finish frames t ≠ .shift r' := by
    intro t
    unfold Reading.finish
    split <;> exact fun same => nomatch same
  unfold Reading.step
  rw [isEof]
  cases phase with
  | atom head =>
      cases head with
      | none => exact fun same => nomatch same
      | some t => exact finished t
  | params head names =>
      cases names with
      | nil => exact fun same => nomatch same
      | cons name names => exact fun same => nomatch same

theorem error_of_run {tokens : List Token} (closed : Closed tokens) (r : Reading) :
    Closed (r.run tokens).rest ∧
      ∀ e, (r.run tokens).result = .error e → e.Among tokens := by
  induction tokens generalizing r with
  | nil =>
      obtain ⟨_, member, _⟩ := closed
      cases member
  | cons token rest ih =>
      unfold Reading.run
      split
      · rename_i r' shifted
        have other : token.kind ≠ .eof := fun isEof => step_ne_shift_of_eof isEof r r' shifted
        obtain ⟨later, errors⟩ := ih (closed.tail other) r'
        exact ⟨later, fun e failed => (errors e failed).of_suffix (List.suffix_cons _ _)⟩
      · exact ⟨closed, fun e failed => nomatch failed⟩
      · rename_i cause _
        refine ⟨closed, fun e failed => ?_⟩
        cases failed
        exact ⟨token, List.mem_cons_self, cause, rfl⟩

theorem Closed.among_peek {tokens rest : List Token} (closed : Closed rest)
    (part : rest <:+ tokens) (cause : ParseError.Cause) :
    (ParseError.atToken (peek rest) cause).Among tokens :=
  ⟨peek rest, part.subset closed.peek_mem, cause, rfl⟩

theorem error_of_parseTerm {p : Parser} (closed : Closed p.tokens) {e : ParseError}
    (failed : p.parseTerm.1 = .error e) : e = .nonTerminating ∨ e.Among p.tokens := by
  have front := skipNewlines_suffix p.tokens
  obtain ⟨after, errors⟩ := error_of_run closed.skipNewlines (Reading.start p.nextId)
  have read := (Reading.rest_run_suffix (Reading.start p.nextId) (skipNewlines p.tokens)).trans
    front
  unfold parseTerm at failed
  dsimp only at failed
  split at failed
  · cases failed
    exact Or.inr (closed.skipNewlines.among_peek front _)
  · split at failed
    · rename_i e' result
      cases failed
      exact Or.inr ((errors _ result).of_suffix front)
    · split at failed
      · cases failed
        exact Or.inr (after.among_peek read _)
      · split at failed
        · cases failed
          exact Or.inr (after.skipNewlines.among_peek ((skipNewlines_suffix _).trans read) _)
        · split at failed
          · cases failed
            exact Or.inl rfl
          · cases failed

/-! ## Statements -/

/-- The tokens left have an end among them, and an error is about one of the tokens, or is the
guard. -/
structure Stops {α : Type} (p : Parser) (read : Except ParseError α × Parser) : Prop where
  closed : Closed read.2.tokens
  suffix : read.2.tokens <:+ p.tokens
  error : ∀ e, read.1 = .error e → e = .nonTerminating ∨ e.Among p.tokens

theorem Stops.of_suffix {α : Type} {p q : Parser} {read : Except ParseError α × Parser}
    (stops : Stops q read) (part : q.tokens <:+ p.tokens) : Stops p read where
  closed := stops.closed
  suffix := stops.suffix.trans part
  error := fun e failed => (stops.error e failed).imp_right fun among => among.of_suffix part

theorem stops_endLine {α : Type} (form : Form) (value : α) {p : Parser}
    (closed : Closed p.tokens) : Stops p (endLine form value p) := by
  unfold endLine
  split
  · rename_i newline
    refine ⟨closed.tail (by simp [newline]), List.tail_suffix _, fun e failed => ?_⟩
    cases failed
  · refine ⟨closed, List.suffix_rfl, fun e failed => ?_⟩
    cases failed
    exact Or.inr (closed.among_peek List.suffix_rfl _)

theorem stops_termLine (form : Form) {p : Parser} (closed : Closed p.tokens) :
    Stops p (termLine form p) := by
  obtain ⟨after, errors⟩ := error_of_run closed (Reading.start p.nextId)
  have read := Reading.rest_run_suffix (Reading.start p.nextId) p.tokens
  unfold termLine
  dsimp only
  split
  · rename_i e result
    refine ⟨after, read, fun e' failed => ?_⟩
    cases failed
    exact Or.inr (errors _ result)
  · rename_i t result
    exact (stops_endLine form t (p := ⟨_, _⟩) after).of_suffix read

theorem stops_termStatement {p : Parser} (closed : Closed p.tokens) :
    Stops p (termStatement p) := by
  have line := stops_termLine .term closed
  unfold termStatement
  split
  · rename_i e q read
    rw [read] at line
    refine ⟨line.closed, line.suffix, fun e' failed => ?_⟩
    cases failed
    exact line.error _ rfl
  · rename_i t q read
    rw [read] at line
    split
    · refine ⟨line.closed, line.suffix, fun e' failed => ?_⟩
      cases failed
      exact Or.inl rfl
    · exact ⟨line.closed, line.suffix, fun e' failed => nomatch failed⟩

theorem stops_statement {p : Parser} (closed : Closed p.tokens) : Stops p (statement p) := by
  have one : p.tokens.tail <:+ p.tokens := List.tail_suffix _
  have two : p.tokens.tail.tail <:+ p.tokens := (List.tail_suffix _).trans one
  unfold statement
  dsimp only
  split
  · rename_i ident equals
    have after := (closed.tail (by simp [ident])).tail (by simp [equals])
    have line := (stops_termLine .binding
      (p := { p with tokens := p.tokens.tail.tail }) after).of_suffix two
    refine ⟨line.closed, line.suffix, fun e failed => line.error e ?_⟩
    cases result : (termLine .binding { p with tokens := p.tokens.tail.tail }).1 with
    | error e' =>
        rw [result] at failed
        cases failed
        rfl
    | ok t =>
        rw [result] at failed
        cases failed
  · rename_i env
    exact (stops_endLine .env _ (p := { p with tokens := p.tokens.tail })
      (closed.tail (by simp [env]))).of_suffix one
  · rename_i help
    exact (stops_endLine .help _ (p := { p with tokens := p.tokens.tail })
      (closed.tail (by simp [help]))).of_suffix one
  · rename_i unbind ident
    have after := (closed.tail (by simp [unbind])).tail (by simp [ident])
    exact (stops_endLine .unbind _ (p := { p with tokens := p.tokens.tail.tail })
      after).of_suffix two
  · rename_i unbind _
    have after := closed.tail (by simp [unbind])
    refine ⟨after, one, fun e failed => ?_⟩
    cases failed
    exact Or.inr (after.among_peek one _)
  · exact stops_termStatement closed

theorem stops_next {p : Parser} (closed : Closed p.tokens) : Stops p p.next := by
  have front := skipNewlines_suffix p.tokens
  unfold next
  dsimp only
  split
  · exact ⟨closed.skipNewlines, front, fun e failed => nomatch failed⟩
  · have stops := (stops_statement (p := { p with tokens := skipNewlines p.tokens })
      closed.skipNewlines).of_suffix front
    split
    · rename_i e q read
      rw [read] at stops
      refine ⟨stops.closed.synchronize, (synchronize_suffix _).trans stops.suffix,
        fun e' failed => ?_⟩
      cases failed
      exact stops.error _ rfl
    · rename_i st q read
      rw [read] at stops
      exact ⟨stops.closed, stops.suffix, fun e' failed => nomatch failed⟩

end Parser

end UntypedLambda
