import UntypedLambda.Proofs.Parser.Resolution
import UntypedLambda.Proofs.Token.Lines

/-! # A statement and its line

Reading never goes past a newline, so what a statement is read as depends on its line alone, and
not on the place of that line.  What is left behind it is the next line, also after an error;
only the guard against a literal loop, which is raised when the newline has been taken, skips the
next line as well.

Main statements: `Parser.next_line`, `Parser.next_indistinct`. -/
set_option autoImplicit false

namespace UntypedLambda

open Token

/-! ## Reading stays within the line -/

namespace Reading

theorem finish_ne_shift (frames : List Frame) (t : Term) (r : Reading) :
    finish frames t ≠ .shift r := by
  unfold finish
  split <;> exact Move.noConfusion

theorem step_newline {token : Token} (isNewline : token.kind = .newline) (r r' : Reading) :
    r.step token ≠ .shift r' := by
  obtain ⟨frames, phase, next⟩ := r
  cases phase with
  | atom head =>
      cases head with
      | none => simp [step, isNewline]
      | some t =>
          have move : step ⟨frames, .atom (some t), next⟩ token = finish frames t := by
            simp [step, isNewline]
          rw [move]
          exact finish_ne_shift frames t r'
  | params head names => cases names <;> simp [step, isNewline]

theorem finish_eq_reject {frames : List Frame} {t : Term} {cause : ParseError.Cause}
    (move : finish frames t = .reject cause) : cause = .noClosing := by
  unfold finish at move
  split at move <;> cases move
  rfl

theorem cause_of_reject (r : Reading) (token : Token) (cause : ParseError.Cause) :
    r.step token = .reject cause → cause ≠ .nonTerminating := by
  have finished : ∀ frames t, finish frames t = .reject cause → cause ≠ .nonTerminating := by
    intro frames t move
    rw [finish_eq_reject move]
    exact ParseError.Cause.noConfusion
  fun_cases Reading.step r token with
  | case1 | case2 | case3 | case5 | case8 | case10 => intro move; cases move
  | case4 | case9 | case11 =>
      intro move
      cases move
      exact ParseError.Cause.noConfusion
  | case6 => exact finished _ _
  | case7 => exact finished _ _

/-- What is read depends on the line alone, and what is not taken of it stays before the rest. -/
theorem run_line (r : Reading) (line : List Token) {newline : Token}
    (isNewline : newline.kind = .newline) :
    ∃ (result : Except ParseError Term) (left : List Token) (next : Int), left <:+ line ∧
      (∀ e, result = .error e → e.cause ≠ .nonTerminating) ∧
      ∀ rest, r.run (line ++ newline :: rest) = ⟨result, left ++ newline :: rest, next⟩ := by
  induction line generalizing r with
  | nil =>
      cases move : r.step newline with
      | shift r' => exact absurd move (step_newline isNewline r r')
      | accept t =>
          refine ⟨.ok t, [], r.nextId, List.suffix_rfl, (fun e failed => nomatch failed), ?_⟩
          intro rest
          rw [List.nil_append, run, move]
      | reject cause =>
          refine ⟨.error (.atToken newline cause), [], r.nextId, List.suffix_rfl, ?_, ?_⟩
          · rintro e ⟨⟩
            exact cause_of_reject r newline cause move
          · intro rest
            rw [List.nil_append, run, move]
  | cons token line ih =>
      cases move : r.step token with
      | shift r' =>
          obtain ⟨result, left, next, suffix, other, same⟩ := ih r'
          refine ⟨result, left, next, suffix.trans (List.suffix_cons _ _), other, ?_⟩
          intro rest
          rw [List.cons_append, run, move]
          exact same rest
      | accept t =>
          refine ⟨.ok t, token :: line, r.nextId, List.suffix_rfl,
            (fun e failed => nomatch failed), ?_⟩
          intro rest
          rw [List.cons_append, run, move]
      | reject cause =>
          refine ⟨.error (.atToken token cause), token :: line, r.nextId, List.suffix_rfl, ?_, ?_⟩
          · rintro e ⟨⟩
            exact cause_of_reject r token cause move
          · intro rest
            rw [List.cons_append, run, move]

end Reading

namespace Parser

/-- What can become of a line.  An error leaves something of it and its newline, except for the
guard, which comes when the newline is gone. -/
inductive Ends {α : Type} (line : List Token) (newline : Token)
    (act : List Token → Except ParseError α × Parser) : Prop where
  | fails (e : ParseError) (left : List Token) (next : Int) (within : left <:+ line)
      (other : e.cause ≠ .nonTerminating)
      (same : ∀ rest, act rest = (.error e, ⟨left ++ newline :: rest, next⟩))
  | takes (value : α) (next : Int) (same : ∀ rest, act rest = (.ok value, ⟨rest, next⟩))
  | refuses (next : Int) (same : ∀ rest, act rest = (.error .nonTerminating, ⟨rest, next⟩))

section
variable {line : List Token} {newline : Token}

theorem Ends.suffix {α : Type} {act : List Token → Except ParseError α × Parser}
    {longer : List Token} (ends : Ends line newline act) (part : line <:+ longer) :
    Ends longer newline act := by
  cases ends with
  | fails e left next within other same => exact .fails e left next (within.trans part) other same
  | takes value next same => exact .takes value next same
  | refuses next same => exact .refuses next same

theorem Ends.of_eq {α : Type} {act act' : List Token → Except ParseError α × Parser}
    (ends : Ends line newline act) (same : ∀ rest, act' rest = act rest) :
    Ends line newline act' := by
  rw [funext same]
  exact ends

theorem Ends.map {α β : Type} {act : List Token → Except ParseError α × Parser} (f : α → β)
    (ends : Ends line newline act) :
    Ends line newline fun rest => ((act rest).1.map f, (act rest).2) := by
  cases ends with
  | fails e left next within other same =>
      exact .fails e left next within other fun rest => by rw [same]; rfl
  | takes value next same => exact .takes (f value) next fun rest => by rw [same]; rfl
  | refuses next same => exact .refuses next fun rest => by rw [same]; rfl

variable (isNewline : newline.kind = .newline) (inner : ∀ token ∈ line, Inner token)
include isNewline inner

theorem endLine_line {α : Type} (form : Form) (value : α) (next : Int) :
    Ends line newline fun rest => endLine form value ⟨line ++ newline :: rest, next⟩ := by
  cases line with
  | nil =>
      refine .takes value next fun rest => ?_
      simp [endLine, peek, isNewline]
  | cons token line =>
      have notNewline := (inner token List.mem_cons_self).1
      refine .fails (.atToken token (.noNewline form)) (token :: line) next List.suffix_rfl
        ParseError.Cause.noConfusion fun rest => ?_
      simp [endLine, peek, notNewline]

theorem termLine_line (form : Form) (next : Int) :
    Ends line newline fun rest => termLine form ⟨line ++ newline :: rest, next⟩ := by
  obtain ⟨result, left, next', part, other, same⟩ :=
    (Reading.start next).run_line line isNewline
  cases result with
  | error e =>
      refine .fails e left next' part (other e rfl) fun rest => ?_
      simp only [termLine, same]
  | ok t =>
      have within : ∀ token ∈ left, Inner token := fun token member =>
        inner token (part.subset member)
      have ends := (endLine_line isNewline within form t next').suffix part
      simpa only [termLine, same] using ends

theorem termStatement_line (next : Int) :
    Ends line newline fun rest => termStatement ⟨line ++ newline :: rest, next⟩ := by
  cases termLine_line isNewline inner .term next with
  | fails e left next' within other same =>
      refine .fails e left next' within other fun rest => ?_
      simp only [termStatement, same]
  | refuses next' same =>
      refine .refuses next' fun rest => ?_
      simp only [termStatement, same]
  | takes t next' same =>
      cases loops : t.isNonTerminating with
      | true =>
          refine .refuses next' fun rest => ?_
          simp only [termStatement, same, loops, if_true]
      | false =>
          refine .takes (.term t) next' fun rest => ?_
          simp only [termStatement, same, loops, Bool.false_eq_true, if_false]

end

/-! ## Statements by their first tokens -/

section
variable {p : Parser}

theorem statement_binding (first : (peek p.tokens).kind = .ident)
    (second : (peek p.tokens.tail).kind = .equals) :
    p.statement = ((termLine .binding { p with tokens := p.tokens.tail.tail }).1.map
        (Statement.binding (peek p.tokens).lexeme),
      (termLine .binding { p with tokens := p.tokens.tail.tail }).2) := by
  simp [statement, first, second]

theorem statement_env (first : (peek p.tokens).kind = .env) :
    p.statement = endLine .env (.command (.env "")) { p with tokens := p.tokens.tail } := by
  simp [statement, first]

theorem statement_help (first : (peek p.tokens).kind = .help) :
    p.statement = endLine .help (.command (.help "")) { p with tokens := p.tokens.tail } := by
  simp [statement, first]

theorem statement_unbind (first : (peek p.tokens).kind = .unbind)
    (second : (peek p.tokens.tail).kind = .ident) :
    p.statement = endLine .unbind (.command (.unbind (peek p.tokens.tail).lexeme))
      { p with tokens := p.tokens.tail.tail } := by
  simp [statement, first, second]

theorem statement_noName (first : (peek p.tokens).kind = .unbind)
    (second : (peek p.tokens.tail).kind ≠ .ident) :
    p.statement = (.error (.atToken (peek p.tokens.tail) .noUnbindName),
      { p with tokens := p.tokens.tail }) := by
  unfold statement
  simp only [first]

theorem statement_term (notBinding : (peek p.tokens).kind = .ident →
      (peek p.tokens.tail).kind ≠ .equals) (notEnv : (peek p.tokens).kind ≠ .env)
    (notHelp : (peek p.tokens).kind ≠ .help) (notUnbind : (peek p.tokens).kind ≠ .unbind) :
    p.statement = p.termStatement := by
  unfold statement
  dsimp only
  split <;> simp_all

theorem kinds_cases (first second : Kind) :
    (first = .ident ∧ second = .equals) ∨ first = .env ∨ first = .help ∨
      (first = .unbind ∧ second = .ident) ∨ (first = .unbind ∧ second ≠ .ident) ∨
      ((first = .ident → second ≠ .equals) ∧ first ≠ .env ∧ first ≠ .help ∧ first ≠ .unbind) := by
  cases first <;> simp [Classical.em]

end

theorem synchronize_line {line : List Token} (inner : ∀ token ∈ line, Inner token)
    {newline : Token} (isNewline : newline.kind = .newline) (rest : List Token) :
    synchronize (line ++ newline :: rest) = rest := by
  induction line with
  | nil => simp [synchronize, isNewline]
  | cons token line ih =>
      have within := inner token List.mem_cons_self
      rw [List.cons_append, synchronize, if_neg within.2, if_neg within.1]
      exact ih fun t member => inner t (List.mem_cons_of_mem _ member)

theorem synchronize_eof {eof : Token} (isEof : eof.kind = .eof) : synchronize [eof] = [eof] := by
  rw [synchronize, if_pos isEof]

theorem done_eof {eof : Token} (isEof : eof.kind = .eof) (next : Int) :
    done ⟨[eof], next⟩ = true := by
  simp [done, skipped, skipNewlines, atEnd, peek, isEof]

theorem peek_append (line : List Token) (newline : Token) (rest : List Token) :
    peek (line ++ newline :: rest) = line.headD newline := by
  cases line <;> rfl

section
variable {token : Token} {line : List Token} {newline : Token}
  (isNewline : newline.kind = .newline) (inner : ∀ t ∈ token :: line, Inner t)
include isNewline inner

theorem statement_line (next : Int) :
    Ends (token :: line) newline fun rest => statement ⟨token :: (line ++ newline :: rest), next⟩ := by
  have after : ∀ t ∈ line, Inner t := fun t member => inner t (List.mem_cons_of_mem _ member)
  have part : line <:+ token :: line := List.suffix_cons _ _
  have second : ∀ rest, peek (line ++ newline :: rest) = line.headD newline :=
    peek_append line newline
  rcases kinds_cases token.kind (line.headD newline).kind with
    ⟨isIdent, isEquals⟩ | isEnv | isHelp | ⟨isUnbind, isIdent⟩ | ⟨isUnbind, notIdent⟩ | others
  · cases line with
    | nil => simp [isNewline] at isEquals
    | cons equals line =>
        have body : ∀ t ∈ line, Inner t := fun t member => after t (List.mem_cons_of_mem _ member)
        have ends := ((termLine_line isNewline body .binding next).map
          (Statement.binding token.lexeme)).suffix ((List.suffix_cons equals _).trans part)
        exact ends.of_eq fun rest => statement_binding isIdent isEquals
  · have ends := (endLine_line isNewline after .env (Statement.command (.env "")) next).suffix part
    exact ends.of_eq fun rest => statement_env isEnv
  · have ends := (endLine_line isNewline after .help (Statement.command (.help "")) next).suffix part
    exact ends.of_eq fun rest => statement_help isHelp
  · cases line with
    | nil => simp [isNewline] at isIdent
    | cons name line =>
        have body : ∀ t ∈ line, Inner t := fun t member => after t (List.mem_cons_of_mem _ member)
        have ends := (endLine_line isNewline body .unbind (Statement.command (.unbind name.lexeme))
          next).suffix ((List.suffix_cons name _).trans part)
        exact ends.of_eq fun rest => statement_unbind isUnbind isIdent
  · refine .fails (.atToken (line.headD newline) .noUnbindName) line next part
      ParseError.Cause.noConfusion fun rest => ?_
    rw [← second rest] at notIdent ⊢
    exact statement_noName isUnbind notIdent
  · obtain ⟨notBinding, notEnv, notHelp, notUnbind⟩ := others
    have ends := termStatement_line isNewline inner next
    refine ends.of_eq fun rest => ?_
    rw [← second rest] at notBinding
    exact statement_term notBinding notEnv notHelp notUnbind

omit isNewline in
theorem skipNewlines_line (rest : List Token) :
    skipNewlines (token :: (line ++ newline :: rest)) = token :: (line ++ newline :: rest) := by
  simp [skipNewlines, (inner token List.mem_cons_self).1]

omit isNewline in
theorem done_line (rest : List Token) (next : Int) :
    done ⟨token :: (line ++ newline :: rest), next⟩ = false := by
  rw [done, skipped, skipNewlines_line inner]
  simp [atEnd, peek, (inner token List.mem_cons_self).2]

/-- The result depends on the line alone.  What is left is the next line, or, if the guard has
refused the term, what is behind it. -/
theorem next_line (next : Int) :
    ∃ (found : Except ParseError (Option Statement)) (next' : Int), ∀ rest,
      Parser.next ⟨token :: (line ++ newline :: rest), next⟩ =
        (found, ⟨if found = .error .nonTerminating then synchronize rest else rest, next'⟩) := by
  have front : ∀ rest, skipNewlines (token :: (line ++ newline :: rest)) =
      token :: (line ++ newline :: rest) := skipNewlines_line inner
  have begun : ∀ rest, atEnd (token :: (line ++ newline :: rest)) = false := by
    intro rest
    simp [atEnd, peek, (inner token List.mem_cons_self).2]
  cases statement_line isNewline inner next with
  | fails e left next' within other same =>
      refine ⟨.error e, next', fun rest => ?_⟩
      have otherError : ¬ (Except.error e : Except ParseError (Option Statement)) =
          .error .nonTerminating := by
        rintro ⟨⟩
        exact other rfl
      have skipped := synchronize_line (fun t member => inner t (within.subset member)) isNewline
      simp only [Parser.next, front, begun, same, skipped, otherError, Bool.false_eq_true,
        if_false]
  | takes st next' same =>
      refine ⟨.ok (some st), next', fun rest => ?_⟩
      simp [Parser.next, front, begun, same]
  | refuses next' same =>
      refine ⟨.error .nonTerminating, next', fun rest => ?_⟩
      simp [Parser.next, front, begun, same]

end

end Parser

/-! ## Where the tokens stand does not matter -/

theorem mapError_eq_cases {α β : Type} {forget : ParseError → β} {x y : Except ParseError α}
    (same : x.mapError forget = y.mapError forget) :
    (∃ value, x = .ok value ∧ y = .ok value) ∨
      ∃ e e', x = .error e ∧ y = .error e' ∧ forget e = forget e' := by
  cases x with
  | error e =>
      cases y with
      | error e' => exact Or.inr ⟨e, e', rfl, rfl, Except.error.inj same⟩
      | ok v => cases same
  | ok v =>
      cases y with
      | error e' => cases same
      | ok w => exact Or.inl ⟨v, rfl, by rw [Except.ok.inj same]⟩

/-- Tokens that differ for a reader in nothing but what is forgotten of the errors at them. -/
structure Indistinct {β : Type} (forget : ParseError → β) (R : Token → Token → Prop) : Prop where
  missing : R .missing .missing
  kind : ∀ {a b}, R a b → a.kind = b.kind
  lexeme : ∀ {a b}, R a b → a.kind ≠ .newline → a.lexeme = b.lexeme
  atToken : ∀ {a b}, R a b → ∀ cause, forget (.atToken a cause) = forget (.atToken b cause)

theorem indistinct_alike : Indistinct ParseError.withinLine Alike where
  missing := ⟨rfl, rfl, rfl, Or.inl ⟨rfl, rfl⟩⟩
  kind := Alike.kind
  lexeme := Alike.lexeme
  atToken := Alike.atToken

section
variable {β : Type} {forget : ParseError → β} {R : Token → Token → Prop}
  (indistinct : Indistinct forget R)
include indistinct

namespace Reading

theorem step_indistinct {a b : Token} (related : R a b) (r : Reading) : r.step a = r.step b := by
  have kind := indistinct.kind related
  by_cases isNewline : a.kind = .newline
  · have isNewline' : b.kind = .newline := kind.symm.trans isNewline
    obtain ⟨frames, phase, next⟩ := r
    cases phase with
    | atom head => cases head <;> simp [step, isNewline, isNewline']
    | params head names => cases names <;> simp [step, isNewline, isNewline']
  · simp only [step, kind, indistinct.lexeme related isNewline]

theorem run_indistinct {tokens tokens' : List Token} (related : List.Forall₂ R tokens tokens')
    (r : Reading) :
    (r.run tokens).result.mapError forget = (r.run tokens').result.mapError forget ∧
      List.Forall₂ R (r.run tokens).rest (r.run tokens').rest ∧
      (r.run tokens).nextId = (r.run tokens').nextId := by
  induction related generalizing r with
  | nil =>
      refine ⟨rfl, ?_, rfl⟩
      have nothing := List.suffix_nil.mp (rest_run_suffix r [])
      rw [nothing]
      exact .nil
  | @cons a b tokens tokens' first later ih =>
      rw [run, run, ← step_indistinct indistinct first r]
      cases r.step a with
      | shift r' => exact ih r'
      | accept t => exact ⟨rfl, .cons first later, rfl⟩
      | reject cause =>
          exact ⟨congrArg Except.error (indistinct.atToken first cause), .cons first later, rfl⟩

end Reading

end

namespace Parser

/-- The same result, as far as errors are not forgotten, and the same next number. -/
def Matches {α β : Type} (forget : ParseError → β) (a b : Except ParseError α × Parser) : Prop :=
  a.1.mapError forget = b.1.mapError forget ∧ a.2.nextId = b.2.nextId

section
variable {β : Type} {forget : ParseError → β} {R : Token → Token → Prop}
  (indistinct : Indistinct forget R) {tokens tokens' : List Token}
  (related : List.Forall₂ R tokens tokens')
include indistinct related

theorem peek_indistinct : R (peek tokens) (peek tokens') := by
  cases related with
  | nil => exact indistinct.missing
  | cons first _ => exact first

omit indistinct in
theorem tail_indistinct : List.Forall₂ R tokens.tail tokens'.tail := by
  cases related with
  | nil => exact .nil
  | cons _ later => exact later

theorem skipNewlines_indistinct : List.Forall₂ R (skipNewlines tokens) (skipNewlines tokens') := by
  induction related with
  | nil => exact .nil
  | @cons a b tokens tokens' first later ih =>
      have kind := indistinct.kind first
      by_cases isNewline : a.kind = .newline
      · have isNewline' : b.kind = .newline := kind.symm.trans isNewline
        simpa [skipNewlines, isNewline, isNewline'] using ih
      · have notNewline : b.kind ≠ .newline := fun same => isNewline (kind.trans same)
        simpa [skipNewlines, isNewline, notNewline] using ⟨first, later⟩

theorem endLine_indistinct {α : Type} (form : Form) (value : α) (next : Int) :
    Matches forget (endLine form value ⟨tokens, next⟩) (endLine form value ⟨tokens', next⟩) := by
  have first := peek_indistinct indistinct related
  unfold endLine
  simp only [indistinct.kind first]
  split
  · exact ⟨rfl, rfl⟩
  · exact ⟨congrArg Except.error (indistinct.atToken first _), rfl⟩

theorem termLine_indistinct (form : Form) (next : Int) :
    Matches forget (termLine form ⟨tokens, next⟩) (termLine form ⟨tokens', next⟩) := by
  obtain ⟨result, left, number⟩ := Reading.run_indistinct indistinct related (Reading.start next)
  unfold termLine
  dsimp only
  rw [number]
  rcases mapError_eq_cases result with ⟨t, read, read'⟩ | ⟨e, e', read, read', same⟩
  · rw [read, read']
    exact endLine_indistinct indistinct left form t _
  · rw [read, read']
    exact ⟨congrArg Except.error same, rfl⟩

theorem termStatement_indistinct (next : Int) :
    Matches forget (termStatement ⟨tokens, next⟩) (termStatement ⟨tokens', next⟩) := by
  obtain ⟨result, number⟩ := termLine_indistinct indistinct related .term next
  unfold termStatement
  generalize termLine .term ⟨tokens, next⟩ = line at result number ⊢
  generalize termLine .term ⟨tokens', next⟩ = line' at result number ⊢
  obtain ⟨read, p⟩ := line
  obtain ⟨read', p'⟩ := line'
  rcases mapError_eq_cases result with ⟨t, rfl, rfl⟩ | ⟨e, e', rfl, rfl, same⟩
  · dsimp only
    split <;> exact ⟨rfl, number⟩
  · exact ⟨congrArg Except.error same, number⟩

theorem statement_indistinct (next : Int) :
    Matches forget (statement ⟨tokens, next⟩) (statement ⟨tokens', next⟩) := by
  have first := peek_indistinct indistinct related
  have afterFirst := tail_indistinct related
  have second := peek_indistinct indistinct afterFirst
  have firstKind := indistinct.kind first
  have secondKind := indistinct.kind second
  rcases kinds_cases (peek tokens).kind (peek tokens.tail).kind with
    ⟨isIdent, isEquals⟩ | isEnv | isHelp | ⟨isUnbind, isIdent⟩ | ⟨isUnbind, notIdent⟩ | others
  · obtain ⟨result, number⟩ :=
      termLine_indistinct indistinct (tail_indistinct afterFirst) .binding next
    rw [statement_binding isIdent isEquals,
      statement_binding (firstKind.symm.trans isIdent) (secondKind.symm.trans isEquals)]
    refine ⟨?_, number⟩
    rw [indistinct.lexeme first (by simp [isIdent])]
    rcases mapError_eq_cases result with ⟨t, read, read'⟩ | ⟨e, e', read, read', same⟩
    · dsimp only
      rw [read, read']
    · dsimp only
      rw [read, read']
      exact congrArg Except.error same
  · rw [statement_env isEnv, statement_env (firstKind.symm.trans isEnv)]
    exact endLine_indistinct indistinct afterFirst _ _ _
  · rw [statement_help isHelp, statement_help (firstKind.symm.trans isHelp)]
    exact endLine_indistinct indistinct afterFirst _ _ _
  · rw [statement_unbind isUnbind isIdent,
      statement_unbind (firstKind.symm.trans isUnbind) (secondKind.symm.trans isIdent),
      indistinct.lexeme second (by simp [isIdent])]
    exact endLine_indistinct indistinct (tail_indistinct afterFirst) _ _ _
  · rw [secondKind] at notIdent
    rw [statement_noName isUnbind (by rwa [secondKind]),
      statement_noName (firstKind.symm.trans isUnbind) notIdent]
    exact ⟨congrArg Except.error (indistinct.atToken second _), rfl⟩
  · obtain ⟨notBinding, notEnv, notHelp, notUnbind⟩ := others
    rw [statement_term notBinding notEnv notHelp notUnbind]
    rw [firstKind] at notBinding notEnv notHelp notUnbind
    rw [secondKind] at notBinding
    rw [statement_term notBinding notEnv notHelp notUnbind]
    exact termStatement_indistinct indistinct related next

theorem next_indistinct (next : Int) :
    Matches forget (Parser.next ⟨tokens, next⟩) (Parser.next ⟨tokens', next⟩) := by
  have front := skipNewlines_indistinct indistinct related
  have ended : atEnd (skipNewlines tokens) = atEnd (skipNewlines tokens') := by
    rw [atEnd, atEnd, indistinct.kind (peek_indistinct indistinct front)]
  obtain ⟨result, number⟩ := statement_indistinct indistinct front next
  unfold Parser.next
  dsimp only
  rw [ended]
  split
  · exact ⟨rfl, rfl⟩
  · generalize statement ⟨skipNewlines tokens, next⟩ = read at result number ⊢
    generalize statement ⟨skipNewlines tokens', next⟩ = read' at result number ⊢
    obtain ⟨x, p⟩ := read
    obtain ⟨y, q⟩ := read'
    rcases mapError_eq_cases result with ⟨st, rfl, rfl⟩ | ⟨e, e', rfl, rfl, same⟩
    · exact ⟨rfl, number⟩
    · exact ⟨congrArg Except.error same, number⟩

end

end Parser

end UntypedLambda
