import UntypedLambda.Proofs.Parser.Calls

/-! # Where errors stand

The tokens before the one that an error is about can be continued to a text of the grammar, and
with that token they cannot.  For what can be continued the frames are closed one after the
other; for what cannot, reading stops at a token whatever stands behind it.

Main statement: `Cursor.errors_located`. -/
set_option autoImplicit false

namespace UntypedLambda

namespace Grammar

/-- A text that is a single term. -/
inductive Source : List Token → Prop where
  | mk {before term after : List Token} {eof : Token} (isBefore : Parser.Newlines before)
      (isTerm : IsTerm term) (isAfter : Parser.Newlines after) (ended : after ≠ [])
      (isEof : eof.kind = .eof) : Source (before ++ (term ++ (after ++ [eof])))

/-- A statement and the newline that ends it. -/
inductive Line : List Token → Prop where
  | binding {name equals newline : Token} {term : List Token} (isIdent : name.kind = .ident)
      (isEquals : equals.kind = .equals) (isTerm : IsTerm term)
      (isNewline : newline.kind = .newline) : Line (name :: equals :: (term ++ [newline]))
  | env {command newline : Token} (isEnv : command.kind = .env)
      (isNewline : newline.kind = .newline) : Line [command, newline]
  | help {command newline : Token} (isHelp : command.kind = .help)
      (isNewline : newline.kind = .newline) : Line [command, newline]
  | unbind {command name newline : Token} (isUnbind : command.kind = .unbind)
      (isIdent : name.kind = .ident) (isNewline : newline.kind = .newline) :
      Line [command, name, newline]
  | term {term : List Token} {newline : Token} (isTerm : IsTerm term)
      (isNewline : newline.kind = .newline) : Line (term ++ [newline])

/-- The tokens can be continued to a list of that kind. -/
def Viable (accepted : List Token → Prop) (front : List Token) : Prop :=
  ∃ rest, accepted (front ++ rest)

/-- The error is about the first token with which the tokens cannot be continued any more. -/
def Located (accepted : List Token → Prop) (tokens : List Token) (e : ParseError) : Prop :=
  ∃ front token rest, tokens = front ++ token :: rest ∧ e = .atToken token e.cause ∧
    Viable accepted front ∧ ¬ Viable accepted (front ++ [token])

theorem IsTerm.exists_canonical {w : List Token} (isTerm : IsTerm w) :
    ∃ e behind, Canonical .term w e behind := by
  obtain ⟨_, _, derived⟩ := isTerm
  obtain ⟨e, behind, canonical, _⟩ := derived.canonical
  exact ⟨e, behind, canonical⟩

theorem Canonical.isTerm {w : List Token} {e : Named} {behind : List Nat}
    (canonical : Canonical .term w e behind) : IsTerm w :=
  ⟨e, behind, canonical.derives⟩

end Grammar

namespace Reading

open Grammar

/-! ## What can be continued

Some token of each kind that is needed to close what is open. -/

def anIdent : Token := ⟨.ident, "x", 0, 0, 0⟩

def aDot : Token := ⟨.dot, ".", 0, 0, 0⟩

def aParenthesis : Token := ⟨.rparen, ")", 0, 0, 0⟩

def aNewline : Token := ⟨.newline, "", 0, 0, 0⟩

theorem Opens.exists_closing {first next : Int} {u w : List Token} {frames : List Frame} {e : Named}
    {behind : List Nat} (opens : Opens first u frames next)
    (inside : Canonical .term w e behind) : ∃ closing, IsTerm (u ++ (w ++ closing)) := by
  induction opens generalizing w e behind with
  | nil => exact ⟨[], by rw [List.append_nil]; exact inside.isTerm⟩
  | @group u v left frames head next later outside before isLeft ih =>
      have heads := before.group inside isLeft (rfl : aParenthesis.kind = .rparen)
      obtain ⟨_, _, spine, _, _⟩ := heads.of_some
      obtain ⟨closing, isTerm⟩ := ih (.plain spine)
      refine ⟨aParenthesis :: closing, ?_⟩
      simpa using isTerm
  | @lambda u v front names frames head next later outside before opening ih =>
      obtain ⟨_, _, canonical, _, _⟩ := before.lambda opening inside
      obtain ⟨closing, isTerm⟩ := ih canonical
      refine ⟨closing, ?_⟩
      simpa using isTerm

theorem Heads.exists_canonical {outer : List Label} {next later : Int} {v : List Token}
    {head : Option Term} (heads : Heads outer next v head later) :
    ∃ more e behind, Canonical .term (v ++ more) e behind := by
  cases heads with
  | absent => exact ⟨[anIdent], _, _, .plain (.single (.ident rfl))⟩
  | present spine => exact ⟨[], _, _, by rw [List.append_nil]; exact .plain spine⟩

/-- Whatever has been taken is the beginning of a term. -/
theorem Taken.exists_closing {first : Int} {u : List Token} {r : Reading}
    (taken : Taken first u r) : ∃ closing, IsTerm (u ++ closing) := by
  cases taken with
  | @atom u v frames head next later opens heads =>
      obtain ⟨more, _, _, canonical⟩ := heads.exists_canonical
      obtain ⟨closing, isTerm⟩ := opens.exists_closing canonical
      refine ⟨more ++ closing, ?_⟩
      simpa using isTerm
  | @params u v params opening frames head next later opens heads isLambda idents =>
      have more : ∀ p ∈ params ++ [anIdent], p.kind = .ident := by
        intro p member
        rcases List.mem_append.mp member with before | last
        · exact idents p before
        · rw [List.mem_singleton.mp last]
          rfl
      have whole : Opening (opening :: ((params ++ [anIdent]) ++ [aDot])) _ :=
        .mk isLambda (by simp) more rfl
      have body : Canonical .term [anIdent] _ _ := .plain (.single (.ident rfl))
      obtain ⟨closing, isTerm⟩ := (Opens.lambda opens heads whole).exists_closing body
      refine ⟨anIdent :: aDot :: anIdent :: closing, ?_⟩
      simpa using isTerm

/-! ## Where reading stops -/

theorem run_of_accept {r : Reading} {token : Token} {t : Term} (accepts : r.step token = .accept t)
    (rest : List Token) : r.run (token :: rest) = ⟨.ok t, token :: rest, r.nextId⟩ := by
  rw [run, accepts]

theorem run_of_reject {r : Reading} {token : Token} {cause : ParseError.Cause}
    (rejects : r.step token = .reject cause) (rest : List Token) :
    r.run (token :: rest) = ⟨.error (.atToken token cause), token :: rest, r.nextId⟩ := by
  rw [run, rejects]

/-- Reading goes on to a token that is not taken. -/
theorem Taken.exists_stop {first : Int} {v tokens : List Token} {r : Reading}
    (taken : Taken first v r) (closed : Parser.Closed tokens) :
    ∃ u token rest r', tokens = u ++ token :: rest ∧ Takes r u r' ∧ Taken first (v ++ u) r' ∧
      ∀ r'', r'.step token ≠ .shift r'' := by
  induction tokens generalizing v r with
  | nil =>
      obtain ⟨_, member, _⟩ := closed
      cases member
  | cons token tokens ih =>
      have move := taken.step token
      cases stepped : r.step token with
      | shift r' =>
          rw [stepped] at move
          have goesOn : token.kind ≠ .eof := fun isEof =>
            Parser.step_ne_shift_of_eof isEof r r' stepped
          obtain ⟨u, last, rest, r'', split, takes, taken', stops⟩ := ih move (closed.tail goesOn)
          refine ⟨token :: u, last, rest, r'', ?_, .cons stepped takes, ?_, stops⟩
          · rw [List.cons_append, ← split]
          · simpa using taken'
      | accept t =>
          refine ⟨[], token, tokens, r, rfl, .nil r, by rwa [List.append_nil], ?_⟩
          simp [stepped]
      | reject cause =>
          refine ⟨[], token, tokens, r, rfl, .nil r, by rwa [List.append_nil], ?_⟩
          simp [stepped]

/-- Reading stops at a token, and does so whatever stands behind that token.  The tokens before
it can be continued to a term, and are one if they have been read as one. -/
theorem exists_stop {tokens : List Token} (closed : Parser.Closed tokens) (next : Int) :
    ∃ u token rest id result closing, tokens = u ++ token :: rest ∧ IsTerm (u ++ closing) ∧
      (∀ x, (start next).run (u ++ token :: x) = ⟨result, token :: x, id⟩) ∧
      ((∃ t, result = .ok t ∧ closing = []) ∨ ∃ cause, result = .error (.atToken token cause)) := by
  obtain ⟨u, token, rest, r, split, takes, taken, stops⟩ := (taken_start next).exists_stop closed
  have move := taken.step token
  rw [List.nil_append] at taken move
  cases stepped : r.step token with
  | shift r' => exact absurd stepped (stops r')
  | accept t =>
      rw [stepped] at move
      obtain ⟨e, behind, canonical, _, _⟩ := move
      refine ⟨u, token, rest, r.nextId, .ok t, [], split, ?_, fun x => ?_, Or.inl ⟨t, rfl, rfl⟩⟩
      · rw [List.append_nil]
        exact canonical.isTerm
      · rw [takes, run_of_accept stepped]
  | reject cause =>
      obtain ⟨closing, isTerm⟩ := taken.exists_closing
      refine ⟨u, token, rest, r.nextId, _, closing, split, isTerm, fun x => ?_,
        Or.inr ⟨cause, rfl⟩⟩
      rw [takes, run_of_reject stepped]

theorem isTerm_ident {name : Token} (isIdent : name.kind = .ident) : IsTerm [name] :=
  Canonical.isTerm (.plain (.single (.ident isIdent)))

theorem run_of_isTerm {w : List Token} (isTerm : IsTerm w) {token : Token} (stops : Stops token)
    (rest : List Token) (next : Int) :
    ∃ t id, (start next).run (w ++ token :: rest) = ⟨.ok t, token :: rest, id⟩ := by
  obtain ⟨e, behind, canonical⟩ := isTerm.exists_canonical
  exact ⟨_, _, run_of_canonical canonical stops rest next⟩

theorem stops_of_newline {token : Token} (isNewline : token.kind = .newline) : Stops token := by
  simp [Stops, isNewline]

end Reading

namespace Parser

open Grammar

/-! ## Texts that are a single term -/

/-- What a term and the tokens behind it begin with is no newline. -/
theorem peek_of_isTerm {w : List Token} (isTerm : IsTerm w) (rest : List Token) :
    (peek (w ++ rest)).kind ≠ .newline ∧ IsTermKind (peek (w ++ rest)).kind := by
  obtain ⟨e, behind, canonical⟩ := isTerm.exists_canonical
  obtain ⟨first, w, rfl⟩ := List.exists_cons_of_ne_nil canonical.derives.ne_nil
  have kind := canonical.isTermKind List.mem_cons_self
  refine ⟨fun isNewline => ?_, kind⟩
  have isNewline : first.kind = .newline := isNewline
  simp [IsTermKind, isNewline] at kind

theorem skipNewlines_of_peek_ne {tokens : List Token} (other : (peek tokens).kind ≠ .newline) :
    skipNewlines tokens = tokens := by
  cases tokens with
  | nil => rfl
  | cons token rest => exact skipNewlines_of_head other rest

/-- A text that is a single term is read up to the newlines behind the term. -/
theorem run_of_source {tokens : List Token} (source : Source tokens) (next : Int) :
    ∃ t newline after eof id, (Reading.start next).run (skipNewlines tokens) =
        ⟨.ok t, newline :: (after ++ [eof]), id⟩ ∧
      newline.kind = .newline ∧ Newlines after ∧ eof.kind = .eof := by
  obtain @⟨before, term, after, eof, isBefore, isTerm, isAfter, ended, isEof⟩ := source
  obtain ⟨newline, after, rfl⟩ := List.exists_cons_of_ne_nil ended
  have isNewline := isAfter newline List.mem_cons_self
  obtain ⟨t, id, read⟩ := Reading.run_of_isTerm isTerm (Reading.stops_of_newline isNewline)
    (after ++ [eof]) next
  refine ⟨t, newline, after, eof, id, ?_, isNewline,
    fun token member => isAfter token (List.mem_cons_of_mem _ member), isEof⟩
  rw [skipNewlines_append isBefore, skipNewlines_of_peek_ne (peek_of_isTerm isTerm _).1]
  exact read

theorem viable_source {before front closing : List Token} (isBefore : Newlines before)
    (isTerm : IsTerm (front ++ closing)) : Viable Source (before ++ front) := by
  have isNewline : Newlines [Reading.aNewline] := by simp [Newlines, Reading.aNewline]
  refine ⟨closing ++ ([Reading.aNewline] ++ [.missing]), ?_⟩
  have source := Source.mk isBefore isTerm isNewline (List.cons_ne_nil _ _)
    (rfl : Token.missing.kind = .eof)
  simpa using source

theorem peek_append_cons (front : List Token) (token : Token) (rest rest' : List Token) :
    peek (front ++ token :: rest) = peek (front ++ token :: rest') := by
  cases front <;> rfl

/-- Where reading stops, a text that is a single term goes on with a newline. -/
theorem behind_of_source {before u rest : List Token} {token : Token} (isBefore : Newlines before)
    (other : (peek (u ++ token :: rest)).kind ≠ .newline) {next id : Int}
    {result : Except ParseError Term}
    (read : (Reading.start next).run (u ++ token :: rest) = ⟨result, token :: rest, id⟩)
    (source : Source (before ++ (u ++ token :: rest))) :
    ∃ t newline after eof, result = .ok t ∧ token :: rest = newline :: (after ++ [eof]) ∧
      newline.kind = .newline ∧ Newlines after ∧ eof.kind = .eof := by
  obtain ⟨t, newline, after, eof, id', read', isNewline, isAfter, isEof⟩ :=
    run_of_source source next
  rw [skipNewlines_append isBefore, skipNewlines_of_peek_ne other, read,
    Reading.Outcome.mk.injEq] at read'
  exact ⟨t, newline, after, eof, read'.1, read'.2.1, isNewline, isAfter, isEof⟩

/-- Behind a term and its newlines there is nothing but the end. -/
theorem located_behind {before u rest : List Token} {token : Token} (isBefore : Newlines before)
    (isTerm : IsTerm u) {t : Term} {next id : Int} (read : ∀ x,
      (Reading.start next).run (u ++ token :: x) = ⟨.ok t, token :: x, id⟩)
    (isNewline : token.kind = .newline) (more : atEnd (skipNewlines rest) = false)
    (cause : ParseError.Cause) : Located Source (before ++ (u ++ token :: rest))
      (.atToken (peek (skipNewlines rest)) cause) := by
  obtain ⟨after, isAfter, behind⟩ := exists_newlines rest
  have other := peek_skipNewlines rest
  generalize skipNewlines rest = left at more behind other ⊢
  subst behind
  cases left with
  | nil => cases more
  | cons last rest =>
    have notNewline : last.kind ≠ .newline := other
    have notEof : last.kind ≠ .eof := by simpa [atEnd, peek] using more
    refine ⟨before ++ (u ++ token :: after), last, rest, by simp, rfl, ⟨[.missing], ?viable⟩,
      ?not⟩
    case viable =>
      have source := Source.mk isBefore isTerm (List.forall_mem_cons.mpr ⟨isNewline, isAfter⟩)
        (List.cons_ne_nil _ _) (rfl : Token.missing.kind = .eof)
      simpa using source
    case not =>
      rintro ⟨x, source⟩
      have same : before ++ (u ++ token :: after) ++ [last] ++ x =
          before ++ (u ++ token :: (after ++ last :: x)) := by simp
      rw [same] at source
      obtain ⟨_, newline, newlines, eof, _, split, isNewline, isNewlines, isEof⟩ :=
        behind_of_source isBefore (peek_of_isTerm isTerm _).1 (read _) source
      have member : last ∈ newline :: (newlines ++ [eof]) := by
        rw [← split]
        simp
      simp only [List.mem_cons, List.mem_append, List.not_mem_nil, or_false] at member
      rcases member with rfl | inside | rfl
      · exact notNewline isNewline
      · exact notNewline (isNewlines last inside)
      · exact notEof isEof

/-- Where reading stops and there is no newline, nothing else would do. -/
theorem located_stop {before u closing rest : List Token} {token : Token}
    (isBefore : Newlines before) (other : (peek (u ++ token :: rest)).kind ≠ .newline)
    (isTerm : IsTerm (u ++ closing)) {next id : Int} {result : Except ParseError Term}
    (read : ∀ x, (Reading.start next).run (u ++ token :: x) = ⟨result, token :: x, id⟩)
    (refused : ∀ t, result = .ok t → token.kind ≠ .newline) (cause : ParseError.Cause) :
    Located Source (before ++ (u ++ token :: rest)) (.atToken token cause) := by
  refine ⟨before ++ u, token, rest, by simp, rfl, viable_source isBefore isTerm, ?_⟩
  rintro ⟨x, source⟩
  have same : before ++ u ++ [token] ++ x = before ++ (u ++ token :: x) := by simp
  rw [same] at source
  rw [peek_append_cons u token rest x] at other
  obtain ⟨t, newline, _, _, isOk, split, isNewline, _, _⟩ :=
    behind_of_source isBefore other (read x) source
  rw [← (List.cons.inj split).1] at isNewline
  exact refused t isOk isNewline

theorem kind_of_atEnd {token : Token} {rest : List Token} : atEnd (token :: rest) = true ↔
    token.kind = .eof := by
  simp [atEnd, peek]

/-- How a single term can fail to be read: there is none, it is not well formed, something else
stands behind it, or it is a literal loop. -/
theorem parseTerm_eq_error {p : Parser} {result : Except ParseError Term} {rest : List Token}
    {id : Int} (read : (Reading.start p.nextId).run (skipNewlines p.tokens) = ⟨result, rest, id⟩)
    {e : ParseError} (failed : p.parseTerm.1 = .error e) :
    (atEnd (skipNewlines p.tokens) = true ∧
        e = .atToken (peek (skipNewlines p.tokens)) .noExpression) ∨
      result = .error e ∨
      ∃ t, result = .ok t ∧
        ((peek rest).kind ≠ .newline ∧
            e = .atToken (peek rest) (.unexpected (peek rest).text) ∨
          (peek rest).kind = .newline ∧ atEnd (skipNewlines rest) = false ∧
            e = .atToken (peek (skipNewlines rest))
              (.unexpected (peek (skipNewlines rest)).text) ∨
          e = .nonTerminating) := by
  unfold parseTerm at failed
  dsimp only at failed
  rw [read] at failed
  split at failed
  · rename_i ended
    cases failed
    exact Or.inl ⟨ended, rfl⟩
  · cases result with
    | error e' =>
        cases failed
        exact Or.inr (Or.inl rfl)
    | ok t =>
        refine Or.inr (Or.inr ⟨t, rfl, ?_⟩)
        dsimp only at failed
        split at failed
        · rename_i noNewline
          cases failed
          exact Or.inl ⟨noNewline, rfl⟩
        · rename_i isNewline
          split at failed
          · rename_i more
            cases failed
            exact Or.inr (Or.inl ⟨not_not.mp isNewline, by simpa using more, rfl⟩)
          · split at failed
            · cases failed
              exact Or.inr (Or.inr rfl)
            · cases failed

/-- A single term that cannot be read. -/
theorem parseTerm_located {p : Parser} (closed : Closed p.tokens) {e : ParseError}
    (failed : p.parseTerm.1 = .error e) (placed : e ≠ .nonTerminating) :
    Located Source p.tokens e := by
  obtain ⟨before, isBefore, tokens⟩ := exists_newlines p.tokens
  obtain ⟨u, token, rest, id, result, closing, split, isTerm, read, outcome⟩ :=
    Reading.exists_stop closed.skipNewlines p.nextId
  have other := peek_skipNewlines p.tokens
  have refused := parseTerm_eq_error (by rw [split, read rest]) failed
  rw [split] at tokens other refused
  rw [tokens]
  rcases refused with ⟨ended, rfl⟩ | rfl | ⟨t, rfl, ⟨noNewline, rfl⟩ | ⟨isNewline, more, rfl⟩ | rfl⟩
  · cases u with
    | nil =>
        have isEof : token.kind = .eof := kind_of_atEnd.mp ended
        exact located_stop isBefore other isTerm read (fun _ _ => by simp [isEof]) _
    | cons first u =>
        have kind := (peek_of_isTerm isTerm []).2
        have isEof : first.kind = .eof := kind_of_atEnd.mp ended
        simp [IsTermKind, peek, isEof] at kind
  · rcases outcome with ⟨t, isOk, _⟩ | ⟨cause, isError⟩
    · cases isOk
    · cases isError
      exact located_stop isBefore other isTerm read (fun _ isOk => by cases isOk) cause
  · exact located_stop isBefore other isTerm read (fun _ _ => noNewline) _
  · rcases outcome with ⟨_, _, rfl⟩ | ⟨_, isError⟩
    · have dropped : skipNewlines (token :: rest) = skipNewlines rest := by
        have isNewline : token.kind = .newline := isNewline
        simp [skipNewlines, isNewline]
      rw [dropped] at more ⊢
      rw [List.append_nil] at isTerm
      exact located_behind isBefore isTerm read isNewline more _
    · cases isError
  · exact absurd rfl placed

/-! ## Statements -/

/-- A term that has to be followed by a newline, behind tokens of its statement. -/
theorem termLine_located (front : List Token) {tokens : List Token} (closed : Closed tokens)
    {form : Form} {next : Int} {e : ParseError}
    (failed : (termLine form ⟨tokens, next⟩).1 = .error e)
    (accepts : ∀ term newline, IsTerm term → newline.kind = .newline →
      Line (front ++ (term ++ [newline])))
    (only : ∀ u token rest x result id, tokens = u ++ token :: rest →
      (∀ y, (Reading.start next).run (u ++ token :: y) = ⟨result, token :: y, id⟩) →
      Line (front ++ (u ++ token :: x)) →
      ∃ term newline, IsTerm term ∧ newline.kind = .newline ∧
        u ++ token :: x = term ++ [newline]) :
    Located Line (front ++ tokens) e := by
  obtain ⟨u, token, rest, id, result, closing, split, isTerm, read, outcome⟩ :=
    Reading.exists_stop closed next
  have located : ∀ cause, (∀ t, result = .ok t → token.kind ≠ .newline) →
      Located Line (front ++ tokens) (.atToken token cause) := by
    intro cause refused
    refine ⟨front ++ u, token, rest, by rw [split, List.append_assoc], rfl,
      ⟨closing ++ [Reading.aNewline], ?_⟩, ?_⟩
    · have line := accepts (u ++ closing) Reading.aNewline isTerm rfl
      simpa using line
    · rintro ⟨x, line⟩
      have same : front ++ u ++ [token] ++ x = front ++ (u ++ token :: x) := by simp
      rw [same] at line
      obtain ⟨term, newline, isTerm, isNewline, whole⟩ :=
        only u token rest x result id split read line
      obtain ⟨t, id', read'⟩ :=
        Reading.run_of_isTerm isTerm (Reading.stops_of_newline isNewline) [] next
      rw [← whole, read x, Reading.Outcome.mk.injEq] at read'
      rw [← (List.cons.inj read'.2.1).1] at isNewline
      exact refused t read'.1 isNewline
  unfold termLine at failed
  dsimp only at failed
  rw [split, read rest] at failed
  rcases outcome with ⟨t, rfl, _⟩ | ⟨cause, rfl⟩
  · by_cases isNewline : token.kind = .newline
    · simp [endLine, peek, isNewline] at failed
    · simp only [endLine, peek, List.headD_cons, isNewline, if_false] at failed
      cases failed
      exact located _ fun _ _ => isNewline
  · cases failed
    exact located cause fun _ isOk => by cases isOk

theorem endLine_located {α : Type} (front : List Token) {tokens : List Token}
    (closed : Closed tokens) {form : Form} {value : α} {next : Int} {e : ParseError}
    (failed : (endLine form value ⟨tokens, next⟩).1 = .error e)
    (accepts : ∀ newline, newline.kind = .newline → Line (front ++ [newline]))
    (only : ∀ token rest, Line (front ++ token :: rest) → token.kind = .newline) :
    Located Line (front ++ tokens) e := by
  obtain ⟨token, rest, rfl⟩ := closed.exists_cons
  unfold endLine at failed
  by_cases isNewline : token.kind = .newline
  · simp [peek, isNewline] at failed
  · simp only [peek, List.headD_cons, isNewline, if_false] at failed
    cases failed
    refine ⟨front, token, rest, rfl, rfl, ⟨[Reading.aNewline], accepts _ rfl⟩, ?_⟩
    rintro ⟨x, line⟩
    rw [List.append_assoc] at line
    exact isNewline (only token x line)

/-- The forms of statement, by the first token. -/
theorem line_cons {first : Token} {rest : List Token} (line : Line (first :: rest)) :
    (first.kind = .ident ∧ ∃ equals term newline, equals.kind = .equals ∧ IsTerm term ∧
        newline.kind = .newline ∧ rest = equals :: (term ++ [newline])) ∨
      ((first.kind = .env ∨ first.kind = .help) ∧ ∃ newline, newline.kind = .newline ∧
        rest = [newline]) ∨
      (first.kind = .unbind ∧ ∃ name newline, name.kind = .ident ∧ newline.kind = .newline ∧
        rest = [name, newline]) ∨
      (IsTermKind first.kind ∧ ∃ term newline, IsTerm term ∧ newline.kind = .newline ∧
        first :: rest = term ++ [newline]) := by
  generalize whole : first :: rest = tokens at line
  cases line with
  | binding isIdent isEquals isTerm isNewline =>
      cases whole
      exact Or.inl ⟨isIdent, _, _, _, isEquals, isTerm, isNewline, rfl⟩
  | env isEnv isNewline =>
      cases whole
      exact Or.inr (Or.inl ⟨Or.inl isEnv, _, isNewline, rfl⟩)
  | help isHelp isNewline =>
      cases whole
      exact Or.inr (Or.inl ⟨Or.inr isHelp, _, isNewline, rfl⟩)
  | unbind isUnbind isIdent isNewline =>
      cases whole
      exact Or.inr (Or.inr (Or.inl ⟨isUnbind, _, _, isIdent, isNewline, rfl⟩))
  | @term term newline isTerm isNewline =>
      have kind := (peek_of_isTerm isTerm [newline]).2
      rw [← whole] at kind
      exact Or.inr (Or.inr (Or.inr ⟨kind, _, _, isTerm, isNewline, rfl⟩))

theorem binding_located {name equals : Token} {more : List Token} (closed : Closed more)
    (isIdent : name.kind = .ident) (isEquals : equals.kind = .equals) {next : Int}
    {e : ParseError} (failed : (termLine .binding ⟨more, next⟩).1 = .error e) :
    Located Line (name :: equals :: more) e := by
  refine termLine_located [name, equals] closed failed
    (fun term newline isTerm isNewline => .binding isIdent isEquals isTerm isNewline) ?_
  intro u token rest x result id _ _ line
  rcases line_cons line with ⟨_, _, term, newline, _, isTerm, isNewline, behind⟩ |
    ⟨other, _⟩ | ⟨other, _⟩ | ⟨_, term, newline, isTerm, isNewline, whole⟩
  · exact ⟨term, newline, isTerm, isNewline, (List.cons.inj behind).2⟩
  · simp [isIdent] at other
  · simp [isIdent] at other
  · -- no term has a second token of that kind, and it is no newline either
    have member : equals ∈ term ++ [newline] := by
      rw [← whole]
      simp
    obtain ⟨e, behind, canonical⟩ := isTerm.exists_canonical
    rcases List.mem_append.mp member with inside | last
    · have kind := canonical.isTermKind inside
      simp [IsTermKind, isEquals] at kind
    · rw [List.mem_singleton.mp last, isNewline] at isEquals
      cases isEquals

theorem termStatement_located {token : Token} {more : List Token} (closed : Closed (token :: more))
    (notBinding : token.kind = .ident → (peek more).kind ≠ .equals) (notEnv : token.kind ≠ .env)
    (notHelp : token.kind ≠ .help) (notUnbind : token.kind ≠ .unbind) {next : Int} {e : ParseError}
    (failed : (termLine .term ⟨token :: more, next⟩).1 = .error e) :
    Located Line (token :: more) e := by
  refine termLine_located [] closed failed
    (fun term newline isTerm isNewline => .term isTerm isNewline) ?_
  intro u last rest x result id split read line
  have first : peek (u ++ last :: x) = token := by
    rw [peek_append_cons u last x rest, ← split]
    rfl
  obtain ⟨head, tail, whole⟩ : ∃ head tail, u ++ last :: x = head :: tail :=
    List.exists_cons_of_ne_nil (by simp)
  rw [whole] at first
  subst first
  rw [List.nil_append, whole] at line
  rcases line_cons line with ⟨isIdent, equals, term, newline, isEquals, _, _, behind⟩ |
    ⟨other, _⟩ | ⟨other, _⟩ | ⟨_, term, newline, isTerm, isNewline, all⟩
  · have isIdent : head.kind = .ident := isIdent
    cases u with
    | nil =>
        -- an identifier is taken
        obtain ⟨rfl, _⟩ := List.cons.inj whole
        obtain ⟨t, id', read'⟩ := Reading.run_of_isTerm (Reading.isTerm_ident isIdent)
          (by decide : Reading.Stops .missing) [] next
        have same := (read [.missing]).symm.trans read'
        simp at same
    | cons second u =>
        have left : more = u ++ last :: rest := (List.cons.inj split).2
        have right : u ++ last :: x = tail := (List.cons.inj whole).2
        have isSecond : peek more = equals := by
          rw [left, peek_append_cons u last rest x, right, behind]
          rfl
        exact absurd (isSecond ▸ isEquals) (notBinding isIdent)
  · exact absurd other (not_or.mpr ⟨notEnv, notHelp⟩)
  · exact absurd other notUnbind
  · exact ⟨term, newline, isTerm, isNewline, whole.trans all⟩

/-- A command that has to be followed by a newline. -/
theorem command_located {command : Token} {more : List Token} (closed : Closed more)
    (isCommand : command.kind = .env ∨ command.kind = .help) {α : Type} {form : Form} {value : α}
    {next : Int} {e : ParseError} (failed : (endLine form value ⟨more, next⟩).1 = .error e) :
    Located Line (command :: more) e := by
  refine endLine_located [command] closed failed (fun newline isNewline => ?_) ?_
  · rcases isCommand with isEnv | isHelp
    · exact .env isEnv isNewline
    · exact .help isHelp isNewline
  · intro token rest line
    rcases line_cons line with ⟨other, _⟩ | ⟨_, newline, isNewline, behind⟩ | ⟨other, _⟩ |
      ⟨other, _⟩
    · simp [other] at isCommand
    · rwa [(List.cons.inj behind).1]
    · simp [other] at isCommand
    · rcases isCommand with isEnv | isHelp
      · simp [IsTermKind, isEnv] at other
      · simp [IsTermKind, isHelp] at other

theorem unbind_located {command : Token} {more : List Token} (closed : Closed more)
    (isUnbind : command.kind = .unbind) {next : Int} {e : ParseError}
    (failed : (statement ⟨command :: more, next⟩).1 = .error e) :
    Located Line (command :: more) e := by
  have only : ∀ {rest}, Line (command :: rest) → ∃ name newline, name.kind = .ident ∧
      newline.kind = .newline ∧ rest = [name, newline] := by
    intro rest line
    rcases line_cons line with ⟨other, _⟩ | ⟨other, _⟩ | ⟨_, found⟩ | ⟨other, _⟩
    · simp [isUnbind] at other
    · simp [isUnbind] at other
    · exact found
    · simp [IsTermKind, isUnbind] at other
  obtain ⟨name, after, rfl⟩ := closed.exists_cons
  by_cases isIdent : name.kind = .ident
  · rw [statement_unbind (p := ⟨command :: name :: after, next⟩) isUnbind isIdent] at failed
    refine endLine_located [command, name] (closed.tail (by simp [peek, isIdent])) failed
      (fun newline isNewline => .unbind isUnbind isIdent isNewline) ?_
    intro token rest line
    obtain ⟨_, newline, _, isNewline, behind⟩ := only line
    rwa [(List.cons.inj (List.cons.inj behind).2).1]
  · rw [statement_noName (p := ⟨command :: name :: after, next⟩) isUnbind isIdent] at failed
    cases failed
    refine ⟨[command], name, after, rfl, rfl, ⟨[Reading.anIdent, Reading.aNewline], ?_⟩, ?_⟩
    · exact .unbind isUnbind rfl rfl
    · rintro ⟨x, line⟩
      obtain ⟨_, _, isName, _, behind⟩ := only line
      rw [(List.cons.inj behind).1] at isIdent
      exact isIdent isName

theorem statement_located {p : Parser} (closed : Closed p.tokens) (more : atEnd p.tokens = false)
    {e : ParseError} (failed : p.statement.1 = .error e) (placed : e ≠ .nonTerminating) :
    Located Line p.tokens e := by
  obtain ⟨tokens, next⟩ := p
  dsimp only at closed more
  obtain ⟨token, after, rfl⟩ := closed.exists_cons
  have later : Closed after := closed.tail fun isEof => by
    have isEof : token.kind = .eof := isEof
    rw [kind_of_atEnd.mpr isEof] at more
    cases more
  rcases kinds_cases token.kind (peek after).kind with
    ⟨isIdent, isEquals⟩ | isEnv | isHelp | ⟨isUnbind, _⟩ | ⟨isUnbind, _⟩ | ⟨others, notCommand⟩
  · obtain ⟨equals, term, rfl⟩ := later.exists_cons
    have isEquals : equals.kind = .equals := isEquals
    have behind : Closed term := later.tail (by simp [peek, isEquals])
    rw [statement_binding (p := ⟨token :: equals :: term, next⟩) isIdent isEquals] at failed
    cases result : (termLine .binding ⟨term, next⟩).1 with
    | ok t => simp [result, Except.map] at failed
    | error e' =>
        simp only [List.tail_cons, result, Except.map, Except.error.injEq] at failed
        subst failed
        exact binding_located behind isIdent isEquals result
  · rw [statement_env (p := ⟨token :: after, next⟩) isEnv] at failed
    exact command_located later (Or.inl isEnv) failed
  · rw [statement_help (p := ⟨token :: after, next⟩) isHelp] at failed
    exact command_located later (Or.inr isHelp) failed
  · exact unbind_located later isUnbind failed
  · exact unbind_located later isUnbind failed
  · obtain ⟨notEnv, notHelp, notUnbind⟩ := notCommand
    rw [statement_term (p := ⟨token :: after, next⟩) others notEnv notHelp notUnbind] at failed
    unfold termStatement at failed
    cases read : termLine .term ⟨token :: after, next⟩ with
    | mk result q =>
      rw [read] at failed
      cases result with
      | error e' =>
          cases failed
          exact termStatement_located closed others notEnv notHelp notUnbind
            (congrArg Prod.fst read)
      | ok t =>
          cases loops : t.isNonTerminating with
          | true =>
              simp only [loops, if_true, Except.error.injEq] at failed
              exact absurd failed.symm placed
          | false => simp [loops] at failed

/-- A statement that cannot be read. -/
theorem next_located {p : Parser} (closed : Closed p.tokens) {e : ParseError}
    (failed : p.next.1 = .error e) (placed : e ≠ .nonTerminating) :
    Located Line (skipNewlines p.tokens) e := by
  unfold next at failed
  dsimp only at failed
  cases atLast : atEnd (skipNewlines p.tokens) with
  | true => simp [atLast] at failed
  | false =>
      have refused : (statement ⟨skipNewlines p.tokens, p.nextId⟩).1 = .error e := by
        rw [atLast] at failed
        generalize statement ⟨skipNewlines p.tokens, p.nextId⟩ = read at failed ⊢
        obtain ⟨result, q⟩ := read
        cases result with
        | error e' =>
            cases failed
            rfl
        | ok st => cases failed
      exact statement_located closed.skipNewlines atLast refused placed

end Parser

namespace Cursor

open Grammar

/-- Whatever has been called before, an error of the next call is about the first token with
which no text of the grammar goes on, and the call reports what it returns and nothing else. -/
theorem errors_located (c : Cursor) {tokens : List Token} (ended : ∃ eof ∈ tokens, eof.kind = .eof)
    {fuel : Nat} (enough : 4 * tokens.length + 4 ≤ fuel) (calls : List Call) :
    let p := (Parser.answers ⟨tokens, c.nextId⟩ calls).2
    (∀ e, p.parseTerm.1 = .error e → e ≠ .nonTerminating → Located Source p.tokens e) ∧
    (∀ e, p.next.1 = .error e → e ≠ .nonTerminating →
      Located Line (Parser.skipNewlines p.tokens) e) ∧
    ∃ answers now, (c.load tokens).calls fuel calls = some (answers, now) ∧
      p.tokens = tokens.drop now.position ∧
      ∀ one, ∃ after, now.call fuel one = some ((p.answer one).1, after) ∧
        after.reports = now.reports ++ (p.answer one).1.errors := by
  intro p
  obtain ⟨found, reached⟩ := calls_before (p := ⟨tokens, c.nextId⟩) (Or.inr ended) (.refl tokens)
    c.reports enough calls
  have loaded : c.load tokens = before tokens tokens .empty c.nextId c.reports := by
    rw [load, before, Nat.sub_self]
    rfl
  have closed : Parser.Closed p.tokens := by
    obtain ⟨token, more, isMore⟩ := reached.exists_cons ended
    exact (Ended.of_reached (Or.inr ended) reached).resolve_left
      (isMore ▸ List.cons_ne_nil token more)
  refine ⟨fun e => Parser.parseTerm_located closed, fun e => Parser.next_located closed,
    _, _, loaded ▸ found, (drop_position reached _ _ _).symm, fun one => ?_⟩
  have fewer : p.tokens.length ≤ tokens.length := reached.length_le
  have left : 4 * p.tokens.length + 4 ≤ fuel := by omega
  obtain ⟨answered, _⟩ := call_before (Or.inr ended) reached
    (c.reports ++ (Parser.answers ⟨tokens, c.nextId⟩ calls).1.flatMap Answer.errors) left one
  exact ⟨_, answered, rfl⟩

/-- `x = )` on a line. -/
def unbalanced : List Token :=
  [⟨.ident, "x", 1, 1, 1⟩, ⟨.equals, "=", 1, 3, 1⟩, ⟨.rparen, ")", 1, 5, 1⟩,
    ⟨.newline, "", 1, 6, 0⟩, ⟨.eof, "", 2, 1, 0⟩]

/-- As a single term it is wrong from the second token on, as a statement from the third one on. -/
theorem errors_located_unbalanced :
    Located Source unbalanced (.atToken ⟨.equals, "=", 1, 3, 1⟩ (.unexpected "=")) ∧
    Located Line unbalanced (.atToken ⟨.rparen, ")", 1, 5, 1⟩ .noExpression) ∧
    ∃ after, ((new 1).load unbalanced).call 24 .next =
        some (.next (.error (.atToken ⟨.rparen, ")", 1, 5, 1⟩ .noExpression)), after) ∧
      after.reports = [.atToken ⟨.rparen, ")", 1, 5, 1⟩ .noExpression] := by
  have ended : ∃ eof ∈ unbalanced, eof.kind = .eof := ⟨⟨.eof, "", 2, 1, 0⟩, by decide, rfl⟩
  obtain ⟨asTerm, asLine, answers, now, loaded, _, calls⟩ :=
    errors_located (new 1) ended (Nat.le_refl 24) []
  obtain ⟨_, rfl⟩ := Prod.mk.inj (Option.some.inj loaded)
  exact ⟨asTerm _ rfl nofun, asLine _ rfl nofun, calls .next⟩

end Cursor

end UntypedLambda
