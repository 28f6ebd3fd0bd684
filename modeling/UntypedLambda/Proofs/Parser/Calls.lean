import Mathlib.Data.List.DropRight
import UntypedLambda.Proofs.Parser.Descent
import UntypedLambda.Proofs.Parser.Lines
import UntypedLambda.Proofs.Parser.SingleTerm

/-! # No index is out of range

A parser that works by index answers every call like the one that holds the tokens left, whatever
the tokens are, as long as there is an end among them or no token at all.  So it never asks for a
token that is not there, goes forward only, and comes to an end.

Main statements: `Cursor.call_before`, and over all calls `Cursor.calls_in_range`. -/
set_option autoImplicit false

namespace UntypedLambda

namespace Cursor

open Reading

/-! ## Lines -/

/-- A procedure has answered like one of the parser that holds the tokens left, it stands before
the same tokens, and it has reported the error, if there is one. -/
structure Mirrors {α : Type} (tokens : List Token) (reports : List ParseError)
    (found : Option (Except ParseError α × Cursor)) (read : Except ParseError α × Parser) :
    Prop where
  found : found = some (read.1, before tokens read.2.tokens .empty read.2.nextId
    (reports ++ refusal read.1))
  reached : Reached tokens read.2.tokens

section

variable {tokens : List Token} {fuel : Nat} (closed : Parser.Closed tokens)
variable (reports : List ParseError)
include closed

theorem mirrors_endLine {α : Type} (form : Form) (value : α) {p : Parser}
    (reached : Reached tokens p.tokens) : Mirrors tokens reports
      ((before tokens p.tokens .empty p.nextId reports).endLine form value)
      (Parser.endLine form value p) := by
  obtain ⟨rest, next⟩ := p
  obtain ⟨token, more, rfl⟩ := reached.exists_cons closed
  have here : Parser.peek (token :: more) = token := rfl
  rw [endLine, Parser.endLine, here]
  by_cases isNewline : token.kind = .newline
  · rw [consume_before reached _ _ _ isNewline Token.Kind.noConfusion, if_pos isNewline]
    refine ⟨?_, reached.tail (by simp [isNewline])⟩
    rw [refusal, List.append_nil]
    rfl
  · rw [consume_before_of_ne reached _ _ _ isNewline Token.Kind.noConfusion, if_neg isNewline]
    exact ⟨rfl, reached⟩

theorem mirrors_termLine (form : Form) {p : Parser} (reached : Reached tokens p.tokens)
    (enough : 4 * p.tokens.length + 3 ≤ fuel) : Mirrors tokens reports
      ((before tokens p.tokens .empty p.nextId reports).termLine fuel form)
      (Parser.termLine form p) := by
  obtain ⟨found, reached', _⟩ := term_before closed reached enough p.nextId reports
  rw [termLine, found, Parser.termLine]
  cases result : ((start p.nextId).run p.tokens).result with
  | error e => exact ⟨rfl, reached'⟩
  | ok t =>
      rw [refusal, List.append_nil]
      exact mirrors_endLine closed reports form t
        (p := ⟨((start p.nextId).run p.tokens).rest, ((start p.nextId).run p.tokens).nextId⟩)
        reached'

theorem mirrors_termStatement {p : Parser} (reached : Reached tokens p.tokens)
    (enough : 4 * p.tokens.length + 3 ≤ fuel) : Mirrors tokens reports
      ((before tokens p.tokens .empty p.nextId reports).termStatement fuel)
      (Parser.termStatement p) := by
  obtain ⟨found, reached'⟩ := mirrors_termLine closed reports .term reached enough
  rw [termStatement, found, Parser.termStatement]
  generalize Parser.termLine .term p = line at reached' ⊢
  obtain ⟨result, q⟩ := line
  cases result with
  | error e => exact ⟨rfl, reached'⟩
  | ok t =>
      rw [refusal, List.append_nil]
      simp only [Option.bind_eq_bind, Option.bind_some]
      split
      · exact ⟨rfl, reached'⟩
      · exact ⟨by rw [refusal, List.append_nil]; rfl, reached'⟩

omit closed in
theorem checkNext_before {more : List Token} {token : Token}
    (reached : Reached tokens (token :: more)) (scopes : Scopes) (next : Int)
    {kind : Token.Kind} (notEnd : kind ≠ .eof) :
    (before tokens (token :: more) scopes next reports).checkNext kind =
      some ((Parser.peek more).kind == kind) := by
  obtain ⟨front, rfl, _⟩ := reached
  have position : (front ++ token :: more).length - (token :: more).length = front.length := by
    rw [List.length_append, Nat.add_sub_cancel]
  rw [checkNext, before]
  dsimp only
  rw [position]
  cases more with
  | nil =>
      have missing : ((Parser.peek []).kind == kind) = false :=
        beq_eq_false_iff_ne.mpr (Ne.symm notEnd)
      rw [if_pos (by simp), missing]
  | cons second after =>
      rw [if_neg (by simp), List.getElem?_append_right (Nat.le_succ _)]
      simp [Parser.peek]

theorem mirrors_binding {name equals : Token} {more : List Token} (next : Int)
    (reached : Reached tokens (name :: equals :: more)) (isIdent : name.kind = .ident)
    (isEquals : equals.kind = .equals) (enough : 4 * more.length + 3 ≤ fuel) :
    Mirrors tokens reports
      ((before tokens (name :: equals :: more) .empty next reports).binding fuel)
      (Parser.statement ⟨name :: equals :: more, next⟩) := by
  have behind : name.kind ≠ .eof ∧ equals.kind ≠ .eof := by simp [isIdent, isEquals]
  obtain ⟨found, reached'⟩ := mirrors_termLine closed reports .binding
    (p := ⟨more, next⟩) ((reached.tail behind.1).tail behind.2) enough
  rw [Parser.statement_binding (p := ⟨name :: equals :: more, next⟩) isIdent isEquals, binding,
    advance_before reached _ _ _ behind.1]
  simp only [Option.bind_eq_bind, Option.bind_some, found, List.tail_cons,
    advance_before (reached.tail behind.1) _ _ _ behind.2]
  generalize Parser.termLine .binding ⟨more, next⟩ = line at reached' ⊢
  obtain ⟨result, q⟩ := line
  cases result with
  | error e => exact ⟨rfl, reached'⟩
  | ok t => exact ⟨by rw [refusal, Except.map, refusal]; rfl, reached'⟩

theorem mirrors_statement {p : Parser} (reached : Reached tokens p.tokens)
    (enough : 4 * p.tokens.length + 3 ≤ fuel) : Mirrors tokens reports
      ((before tokens p.tokens .empty p.nextId reports).statement fuel) (Parser.statement p) := by
  obtain ⟨rest, next⟩ := p
  obtain ⟨token, more, rfl⟩ := reached.exists_cons closed
  have fresh : { before tokens (token :: more) .empty next reports with scopes := .empty } =
      before tokens (token :: more) .empty next reports := rfl
  have starts : (before tokens (token :: more) .empty next reports).startsBinding =
      some (token.kind == .ident && (Parser.peek more).kind == .equals) := by
    rw [startsBinding, check_before reached _ _ _ Token.Kind.noConfusion,
      checkNext_before reports reached _ _ Token.Kind.noConfusion]
    cases token.kind == .ident <;> rfl
  rw [statement, fresh, starts]
  by_cases isBinding : token.kind = .ident ∧ (Parser.peek more).kind = .equals
  · obtain ⟨isIdent, isEquals⟩ := isBinding
    obtain ⟨equals, after, rfl⟩ := (reached.tail (by simp [isIdent])).exists_cons closed
    have fewer : 4 * after.length + 3 ≤ fuel := by
      simp only [List.length_cons] at enough
      omega
    have mirrors := mirrors_binding closed reports next reached isIdent isEquals fewer
    simpa [isIdent, isEquals] using mirrors
  · have notBinding : (token.kind == .ident && (Parser.peek more).kind == .equals) = false := by
      simpa using isBinding
    simp only [notBinding, Option.bind_eq_bind, Option.bind_some, Bool.false_eq_true, if_false]
    by_cases isEnv : token.kind = .env
    · rw [take_before reached _ _ _ isEnv Token.Kind.noConfusion,
        Parser.statement_env (p := ⟨token :: more, next⟩) isEnv]
      exact mirrors_endLine closed reports .env _ (p := ⟨more, next⟩)
        (reached.tail (by simp [isEnv]))
    rw [take_before_of_ne reached _ _ _ isEnv Token.Kind.noConfusion]
    simp only [Option.bind_some, Bool.false_eq_true, if_false]
    by_cases isHelp : token.kind = .help
    · rw [take_before reached _ _ _ isHelp Token.Kind.noConfusion,
        Parser.statement_help (p := ⟨token :: more, next⟩) isHelp]
      exact mirrors_endLine closed reports .help _ (p := ⟨more, next⟩)
        (reached.tail (by simp [isHelp]))
    rw [take_before_of_ne reached _ _ _ isHelp Token.Kind.noConfusion]
    simp only [Option.bind_some, Bool.false_eq_true, if_false]
    by_cases isUnbind : token.kind = .unbind
    · have goesOn : token.kind ≠ .eof := by simp [isUnbind]
      obtain ⟨name, after, rfl⟩ := (reached.tail goesOn).exists_cons closed
      rw [take_before reached _ _ _ isUnbind Token.Kind.noConfusion]
      simp only [Option.bind_some, if_true]
      by_cases isIdent : name.kind = .ident
      · rw [consume_before (reached.tail goesOn) _ _ _ isIdent Token.Kind.noConfusion,
          Parser.statement_unbind (p := ⟨token :: name :: after, next⟩) isUnbind isIdent]
        exact mirrors_endLine closed reports .unbind _ (p := ⟨after, next⟩)
          ((reached.tail goesOn).tail (by simp [isIdent]))
      · rw [consume_before_of_ne (reached.tail goesOn) _ _ _ isIdent Token.Kind.noConfusion,
          Parser.statement_noName (p := ⟨token :: name :: after, next⟩) isUnbind isIdent]
        exact ⟨rfl, reached.tail goesOn⟩
    have notEquals : token.kind = .ident → (Parser.peek more).kind ≠ .equals :=
      fun isIdent isEquals => isBinding ⟨isIdent, isEquals⟩
    rw [take_before_of_ne reached _ _ _ isUnbind Token.Kind.noConfusion,
      Parser.statement_term (p := ⟨token :: more, next⟩) notEquals isEnv isHelp isUnbind]
    exact mirrors_termStatement closed reports (p := ⟨token :: more, next⟩) reached enough

theorem synchronize_before {rest : List Token} (reached : Reached tokens rest)
    (enough : rest.length ≤ fuel) (scopes : Scopes) (next : Int) :
    (before tokens rest scopes next reports).synchronize fuel =
      some (before tokens (Parser.synchronize rest) scopes next reports) ∧
    Reached tokens (Parser.synchronize rest) := by
  induction fuel generalizing rest with
  | zero =>
      obtain ⟨token, more, rfl⟩ := reached.exists_cons closed
      simp at enough
  | succ fuel ih =>
      obtain ⟨token, more, rfl⟩ := reached.exists_cons closed
      rw [synchronize, Parser.synchronize, atEnd_before reached]
      by_cases ended : token.kind = .eof
      · rw [if_pos ended, beq_iff_eq.mpr ended]
        exact ⟨rfl, reached⟩
      · have notEnd : (token.kind == .eof) = false := beq_eq_false_iff_ne.mpr ended
        simp only [if_neg ended, notEnd, Option.bind_eq_bind, Option.bind_some, Bool.false_eq_true,
          if_false, advance_before reached _ _ _ ended]
        by_cases isNewline : token.kind = .newline
        · rw [if_pos isNewline, if_pos isNewline]
          exact ⟨rfl, reached.tail ended⟩
        · rw [if_neg isNewline, if_neg isNewline]
          exact ih (reached.tail ended) (by simpa using enough)

end

/-! ## Calls -/

/-- The lists that a parser may be given: there is no token at all, or there is an end. -/
def Ended (tokens : List Token) : Prop := tokens = [] ∨ Parser.Closed tokens

section

variable {tokens : List Token} {fuel : Nat} (ended : Ended tokens) (reports : List ParseError)
include ended

theorem peek_before_of_ended {rest : List Token} (reached : Reached tokens rest) (scopes : Scopes)
    (next : Int) : (before tokens rest scopes next reports).peek = some (Parser.peek rest) := by
  rcases ended with rfl | closed
  · obtain ⟨front, split, _⟩ := reached
    obtain ⟨rfl, rfl⟩ := List.append_eq_nil_iff.mp split.symm
    rfl
  · obtain ⟨token, more, rfl⟩ := reached.exists_cons closed
    exact peek_before reached scopes next reports

theorem done_before {rest : List Token} (reached : Reached tokens rest)
    (enough : rest.length < fuel) (scopes : Scopes) (next : Int) :
    (before tokens rest scopes next reports).done fuel =
      some (Parser.atEnd (Parser.skipNewlines rest),
        before tokens (Parser.skipNewlines rest) scopes next reports) ∧
    Reached tokens (Parser.skipNewlines rest) := by
  rcases ended with rfl | closed
  · obtain ⟨front, split, _⟩ := reached
    obtain ⟨rfl, rfl⟩ := List.append_eq_nil_iff.mp split.symm
    obtain ⟨fuel, rfl⟩ := Nat.exists_eq_add_one_of_ne_zero (Nat.ne_zero_of_lt enough)
    exact ⟨rfl, .refl []⟩
  · induction fuel generalizing rest with
    | zero => omega
    | succ fuel ih =>
        obtain ⟨token, more, rfl⟩ := reached.exists_cons closed
        rw [done, skipNewlines]
        by_cases isNewline : token.kind = .newline
        · have dropped : Parser.skipNewlines (token :: more) = Parser.skipNewlines more := by
            simp [Parser.skipNewlines, isNewline]
          rw [take_before reached _ _ _ isNewline Token.Kind.noConfusion, dropped]
          exact ih (reached.tail (by simp [isNewline])) (by simpa using enough)
        · rw [take_before_of_ne reached _ _ _ isNewline Token.Kind.noConfusion,
            Parser.skipNewlines_of_head isNewline]
          simp only [Option.bind_eq_bind, Option.bind_some, Bool.false_eq_true, if_false, pure,
            atEnd_before reached]
          exact ⟨rfl, reached⟩

theorem closed_of_more {rest : List Token} (reached : Reached tokens rest)
    (more : Parser.atEnd rest = false) : Parser.Closed tokens := by
  refine ended.resolve_left ?_
  rintro rfl
  obtain ⟨front, split, _⟩ := reached
  obtain ⟨rfl, rfl⟩ := List.append_eq_nil_iff.mp split.symm
  cases more

theorem mirrors_next {p : Parser} (reached : Reached tokens p.tokens)
    (enough : 4 * p.tokens.length + 3 ≤ fuel) : Mirrors tokens reports
      ((before tokens p.tokens .empty p.nextId reports).next fuel) p.next := by
  have some : p.tokens.length < fuel := by omega
  obtain ⟨skipped, reached'⟩ := done_before ended reports reached some .empty p.nextId
  have fewer := (Parser.skipNewlines_suffix p.tokens).length_le
  rw [next, skipped, Parser.next]
  dsimp only
  cases atLast : Parser.atEnd (Parser.skipNewlines p.tokens) with
  | true =>
      refine ⟨?_, reached'⟩
      simp [refusal]
  | false =>
      have closed := closed_of_more ended reached' atLast
      obtain ⟨q, isQ⟩ : ∃ q : Parser, q = ⟨Parser.skipNewlines p.tokens, p.nextId⟩ := ⟨_, rfl⟩
      have enough' : 4 * q.tokens.length + 3 ≤ fuel := by
        subst isQ
        dsimp only
        omega
      have reachedQ : Reached tokens q.tokens := by
        subst isQ
        exact reached'
      obtain ⟨found, later⟩ := mirrors_statement closed reports reachedQ enough'
      have shorter := (Parser.statement_suffix q).length_le
      subst isQ
      simp only [Option.bind_eq_bind, Option.bind_some, Bool.false_eq_true, if_false, found]
      generalize Parser.statement _ = read at later shorter ⊢
      obtain ⟨result, q⟩ := read
      cases result with
      | error e =>
          have left : q.tokens.length ≤ fuel := by
            dsimp only at shorter enough'
            omega
          obtain ⟨synchronized, last⟩ :=
            synchronize_before closed (reports ++ [e]) later left .empty q.nextId
          simp only [refusal, synchronized]
          exact ⟨rfl, last⟩
      | ok st =>
          simp only [refusal, List.append_nil]
          exact ⟨by rw [refusal, List.append_nil]; rfl, later⟩

theorem mirrors_endTerm {token : Token} {more : List Token}
    (reached : Reached tokens (token :: more)) (enough : (token :: more).length < fuel) (t : Term)
    (next : Int) : Mirrors tokens reports
      ((before tokens (token :: more) .empty next reports).endTerm fuel t)
      (if token.kind ≠ .newline then
        (.error (.atToken token (.unexpected token.text)), ⟨token :: more, next⟩)
      else
        let rest := Parser.skipNewlines (token :: more)
        let token := Parser.peek rest
        if !Parser.atEnd rest then
          (.error (.atToken token (.unexpected token.text)), ⟨rest, next⟩)
        else if t.isNonTerminating then (.error .nonTerminating, ⟨rest, next⟩)
        else (.ok t, ⟨rest, next⟩)) := by
  obtain ⟨skipped, later⟩ := done_before ended reports reached enough .empty next
  rw [endTerm, check_before reached _ _ _ Token.Kind.noConfusion]
  by_cases isNewline : token.kind = .newline
  · rw [if_neg (not_not_intro isNewline), beq_iff_eq.mpr isNewline]
    simp only [Option.bind_eq_bind, Option.bind_some, if_true, skipped,
      peek_before_of_ended ended reports later]
    generalize Parser.skipNewlines (token :: more) = rest at later ⊢
    cases Parser.atEnd rest with
    | false => exact ⟨rfl, later⟩
    | true =>
        cases t.isNonTerminating with
        | true => exact ⟨rfl, later⟩
        | false => exact ⟨by simp [refusal], later⟩
  · rw [if_pos isNewline, beq_eq_false_iff_ne.mpr isNewline, peek_before reached]
    exact ⟨rfl, reached⟩

theorem mirrors_parseTerm {p : Parser} (reached : Reached tokens p.tokens)
    (enough : 4 * p.tokens.length + 3 ≤ fuel) : Mirrors tokens reports
      ((before tokens p.tokens .empty p.nextId reports).parseTerm fuel) p.parseTerm := by
  have some : p.tokens.length < fuel := by omega
  obtain ⟨skipped, reached'⟩ := done_before ended reports reached some .empty p.nextId
  have fewer := (Parser.skipNewlines_suffix p.tokens).length_le
  rw [parseTerm, skipped, Parser.parseTerm]
  simp only [Option.bind_eq_bind, Option.bind_some]
  cases atLast : Parser.atEnd (Parser.skipNewlines p.tokens) with
  | true =>
      simp only [if_true, peek_before_of_ended ended reports reached']
      exact ⟨rfl, reached'⟩
  | false =>
      have enough' : 4 * (Parser.skipNewlines p.tokens).length + 3 ≤ fuel := by omega
      obtain ⟨found, later, stops⟩ :=
        term_before (closed_of_more ended reached' atLast) reached' enough' p.nextId reports
      have shorter := (rest_run_suffix (start p.nextId) (Parser.skipNewlines p.tokens)).length_le
      simp only [Bool.false_eq_true, if_false, found]
      generalize (start p.nextId).run (Parser.skipNewlines p.tokens) = read
        at later shorter stops ⊢
      obtain ⟨result, rest, next⟩ := read
      dsimp only at later shorter stops ⊢
      cases result with
      | error e => exact ⟨rfl, later⟩
      | ok t =>
          obtain ⟨token, more, rfl, _⟩ := stops t rfl
          have left : (token :: more).length < fuel := by omega
          rw [refusal, List.append_nil]
          exact mirrors_endTerm ended reports later left t next

end

end Cursor

namespace Parser

theorem skipNewlines_skipNewlines (tokens : List Token) :
    skipNewlines (skipNewlines tokens) = skipNewlines tokens :=
  List.dropWhile_idempotent _ _

theorem skipped_skipped (p : Parser) : p.skipped.skipped = p.skipped := by
  rw [skipped, skipped, skipNewlines_skipNewlines]

theorem next_skipped (p : Parser) : p.skipped.next = p.next := by
  unfold next skipped
  dsimp only
  rw [skipNewlines_skipNewlines]

/-- Before the end there is a statement or an error. -/
theorem next_ne_none {p : Parser} (more : p.done = false) : p.next.1 ≠ .ok none := by
  have notEnd : atEnd (skipNewlines p.tokens) = false := more
  unfold next
  dsimp only
  rw [if_neg (by simp [notEnd])]
  split <;> simp

/-- What `all` gives, with the number of calls of `next` that it takes. -/
def tally (p : Parser) : Cursor.Tally :=
  ⟨p.all.statements, p.all.errors, p.all.statements.length + p.all.errors.length⟩

theorem all_of_next {p : Parser} (more : p.done = false) :
    p.tally = p.next.2.tally.add p.next.1 ∧ p.all.parser = p.next.2.all.parser ∧
      p.all.errors = Cursor.refusal p.next.1 ++ p.next.2.all.errors := by
  have found := next_ne_none more
  have notDone : ¬ p.done = true := by simp [more]
  unfold tally
  rw [all, dif_neg notDone]
  dsimp only
  cases result : p.next.1 with
  | error e =>
      refine ⟨?_, rfl, rfl⟩
      simp only [Cursor.Tally.add, List.length_cons, Nat.add_assoc]
  | ok st? =>
      cases st? with
      | none => exact absurd result found
      | some st =>
          refine ⟨?_, rfl, rfl⟩
          simp only [Cursor.Tally.add, List.length_cons, Nat.add_right_comm]

/-- What a call gives, and the parser after it. -/
def answer (p : Parser) : Cursor.Call → Cursor.Answer × Parser
  | .term => (.term p.parseTerm.1, p.parseTerm.2)
  | .next => (.next p.next.1, p.next.2)
  | .all => (.all p.tally, p.all.parser)
  | .done => (.done p.done, p.skipped)

def answers (p : Parser) : List Cursor.Call → List Cursor.Answer × Parser
  | [] => ([], p)
  | one :: more =>
    let (answers, q) := answers (p.answer one).2 more
    ((p.answer one).1 :: answers, q)

end Parser

namespace Cursor

def Answer.errors : Answer → List ParseError
  | .term result => refusal result
  | .next result => refusal result
  | .all tally => tally.errors
  | .done _ => []

section

variable {tokens : List Token} {fuel : Nat} (ended : Ended tokens)
include ended

theorem all_before {p : Parser} (reached : Reached tokens p.tokens) (reports : List ParseError)
    (enough : 4 * p.tokens.length + 4 ≤ fuel) :
    (before tokens p.tokens .empty p.nextId reports).all fuel = some (p.tally,
      before tokens p.all.parser.tokens .empty p.all.parser.nextId (reports ++ p.all.errors)) ∧
    Reached tokens p.all.parser.tokens := by
  induction fuel generalizing p reports with
  | zero => omega
  | succ fuel ih =>
      have some : p.tokens.length < fuel := by omega
      obtain ⟨skipped, reached'⟩ := done_before ended reports reached some .empty p.nextId
      rw [all, skipped]
      cases atLast : p.done with
      | true =>
          have isEnd : Parser.atEnd (Parser.skipNewlines p.tokens) = true := atLast
          unfold Parser.tally
          rw [isEnd, Parser.all, dif_pos atLast]
          exact ⟨by rw [List.append_nil]; rfl, reached'⟩
      | false =>
          have notEnd : Parser.atEnd (Parser.skipNewlines p.tokens) = false := atLast
          have fewer := (Parser.skipNewlines_suffix p.tokens).length_le
          have progress := p.length_next_lt atLast
          have enough' : 4 * p.skipped.tokens.length + 3 ≤ fuel := by
            have length : p.skipped.tokens.length ≤ p.tokens.length := fewer
            omega
          have next : Mirrors tokens reports _ p.skipped.next :=
            mirrors_next ended reports reached' enough'
          rw [Parser.next_skipped] at next
          have enough'' : 4 * p.next.2.tokens.length + 4 ≤ fuel := by omega
          obtain ⟨rest, last⟩ := ih next.reached (reports ++ refusal p.next.1) enough''
          obtain ⟨tally, parser, errors⟩ := Parser.all_of_next atLast
          have found : (before tokens (Parser.skipNewlines p.tokens) .empty p.nextId reports).next
              fuel = _ := next.found
          rw [notEnd, tally, parser, errors, ← List.append_assoc]
          simp only [Option.bind_eq_bind, Option.bind_some, Bool.false_eq_true, if_false, found,
            rest]
          exact ⟨rfl, last⟩

theorem call_before {p : Parser} (reached : Reached tokens p.tokens) (reports : List ParseError)
    (enough : 4 * p.tokens.length + 4 ≤ fuel) (one : Call) :
    (before tokens p.tokens .empty p.nextId reports).call fuel one = some ((p.answer one).1,
      before tokens (p.answer one).2.tokens .empty (p.answer one).2.nextId
        (reports ++ (p.answer one).1.errors)) ∧
    Reached tokens (p.answer one).2.tokens := by
  cases one with
  | term =>
      have mirrors := mirrors_parseTerm ended reports reached (Nat.le_of_succ_le enough)
      rw [call, mirrors.found]
      exact ⟨rfl, mirrors.reached⟩
  | next =>
      have mirrors := mirrors_next ended reports reached (Nat.le_of_succ_le enough)
      rw [call, mirrors.found]
      exact ⟨rfl, mirrors.reached⟩
  | all =>
      obtain ⟨found, later⟩ := all_before ended reached reports enough
      rw [call, found]
      exact ⟨rfl, later⟩
  | done =>
      have some : p.tokens.length < fuel := by omega
      obtain ⟨found, later⟩ := done_before ended reports reached some .empty p.nextId
      rw [call, found]
      refine ⟨?_, later⟩
      rw [Parser.answer, Answer.errors, List.append_nil]
      rfl

theorem calls_before {p : Parser} (reached : Reached tokens p.tokens) (reports : List ParseError)
    (enough : 4 * tokens.length + 4 ≤ fuel) (calls : List Call) :
    (before tokens p.tokens .empty p.nextId reports).calls fuel calls = some ((p.answers calls).1,
      before tokens (p.answers calls).2.tokens .empty (p.answers calls).2.nextId
        (reports ++ (p.answers calls).1.flatMap Answer.errors)) ∧
    Reached tokens (p.answers calls).2.tokens := by
  induction calls generalizing p reports with
  | nil => exact ⟨by rw [Parser.answers, List.flatMap_nil, List.append_nil]; rfl, reached⟩
  | cons one more ih =>
      have fewer := reached.length_le
      have enough' : 4 * p.tokens.length + 4 ≤ fuel := by omega
      obtain ⟨found, later⟩ := call_before ended reached reports enough' one
      obtain ⟨rest, last⟩ := ih later (reports ++ (p.answer one).1.errors)
      rw [Cursor.calls, found]
      simp only [Option.bind_eq_bind, Option.bind_some, rest, Parser.answers, List.flatMap_cons,
        ← List.append_assoc]
      exact ⟨rfl, last⟩

end

/-! ## Every call stays in range and ends -/

/-- The tokens have been taken one by one from the first one on, none of them at or behind the
first end. -/
structure OnTrack (tokens : List Token) (c : Cursor) : Prop where
  whole : c.tokens = tokens
  trail : c.trail = (List.range (c.position + 1)).reverse
  within : c.position ≤ tokens.findIdx (·.kind == .eof)

theorem onTrack_before {tokens rest : List Token} (reached : Reached tokens rest) (scopes : Scopes)
    (next : Int) (reports : List ParseError) :
    OnTrack tokens (before tokens rest scopes next reports) where
  whole := rfl
  trail := rfl
  within := by
    obtain ⟨front, rfl, noEnd⟩ := reached
    have position : (front ++ rest).length - rest.length = front.length := by
      rw [List.length_append, Nat.add_sub_cancel]
    have notInFront : front.findIdx (·.kind == .eof) = front.length :=
      List.findIdx_eq_length.mpr fun token member => by simp [noEnd token member]
    rw [before, position, List.findIdx_append, notInFront, if_neg (Nat.lt_irrefl _)]
    exact Nat.le_add_left _ _

theorem drop_position {tokens rest : List Token} (reached : Reached tokens rest) (scopes : Scopes)
    (next : Int) (reports : List ParseError) :
    tokens.drop (before tokens rest scopes next reports).position = rest := by
  obtain ⟨front, rfl, _⟩ := reached
  have position : (front ++ rest).length - rest.length = front.length := by
    rw [List.length_append, Nat.add_sub_cancel]
  rw [before, position, List.drop_left]

/-- A call has the answer of the parser that holds the tokens left.  The position has not gone
back.  Before the end, `next` has taken a token behind the newlines that it skips.  The statements
and errors of `all` are as many as its calls of `next`. -/
structure Serves (tokens : List Token) (fuel : Nat) (p : Parser) (now : Cursor) (one : Call)
    (after : Cursor) : Prop where
  answered : now.call fuel one = some ((p.answer one).1, after)
  onTrack : OnTrack tokens after
  forward : now.position ≤ after.position
  progress : one = .next → ∀ seen, now.done fuel = some (false, seen) →
    now.position ≤ seen.position ∧ seen.position < after.position
  counted : ∀ tally, (p.answer one).1 = .all tally →
    tally.statements.length + tally.errors.length = tally.calls

theorem Ended.of_reached {tokens rest : List Token} (ended : Ended tokens)
    (reached : Reached tokens rest) : Ended rest := by
  obtain ⟨front, rfl, noEnd⟩ := reached
  rcases ended with none | ⟨eof, member, isEof⟩
  · exact Or.inl (List.append_eq_nil_iff.mp none).2
  · refine Or.inr ⟨eof, (List.mem_append.mp member).resolve_left fun inFront => ?_, isEof⟩
    exact noEnd eof inFront isEof

theorem length_answer_le {p : Parser} (ended : Ended p.tokens) (one : Call) :
    (p.answer one).2.tokens.length ≤ p.tokens.length := by
  obtain ⟨_, reached⟩ := call_before ended (.refl p.tokens) [] (Nat.le_refl _) one
  exact reached.length_le

theorem serves_before {tokens : List Token} {fuel : Nat} (ended : Ended tokens) {p : Parser}
    (reached : Reached tokens p.tokens) (reports : List ParseError)
    (enough : 4 * p.tokens.length + 4 ≤ fuel) (one : Call) :
    ∃ after, Serves tokens fuel p (before tokens p.tokens .empty p.nextId reports) one after := by
  obtain ⟨answered, later⟩ := call_before ended reached reports enough one
  refine ⟨_, answered, onTrack_before later _ _ _, ?forward, ?progress, ?counted⟩
  case forward =>
    exact Nat.sub_le_sub_left (length_answer_le (ended.of_reached reached) one) tokens.length
  case progress =>
    rintro rfl seen isSeen
    have some : p.tokens.length < fuel := by omega
    obtain ⟨skipped, reached'⟩ := done_before ended reports reached some .empty p.nextId
    rw [skipped] at isSeen
    obtain ⟨more, rfl⟩ := Prod.mk.inj (Option.some.inj isSeen)
    have fewer := (Parser.skipNewlines_suffix p.tokens).length_le
    have taken := p.skipped.length_next_lt (by
      rw [Parser.done, Parser.skipped_skipped]
      exact more)
    rw [Parser.next_skipped] at taken
    have bounded := reached'.length_le
    have shorter : p.next.2.tokens.length < (Parser.skipNewlines p.tokens).length := taken
    rw [before, before, Parser.answer, before]
    dsimp only
    omega
  case counted =>
    intro tally isTally
    cases one with
    | all =>
        cases isTally
        rfl
    | term => cases isTally
    | next => cases isTally
    | done => cases isTally

theorem calls_in_range (c : Cursor) {tokens : List Token}
    (ended : tokens = [] ∨ ∃ eof ∈ tokens, eof.kind = .eof) {fuel : Nat}
    (enough : 4 * tokens.length + 4 ≤ fuel) (calls : List Call) :
    ∃ now, (c.load tokens).calls fuel calls =
        some ((Parser.answers ⟨tokens, c.nextId⟩ calls).1, now) ∧
      OnTrack tokens now ∧
      Parser.mk (tokens.drop now.position) now.nextId =
        (Parser.answers ⟨tokens, c.nextId⟩ calls).2 ∧
      ∀ one, ∃ after,
        Serves tokens fuel (Parser.answers ⟨tokens, c.nextId⟩ calls).2 now one after := by
  obtain ⟨found, reached⟩ := calls_before (p := ⟨tokens, c.nextId⟩) ended (.refl tokens) c.reports
    enough calls
  have loaded : c.load tokens = before tokens tokens .empty c.nextId c.reports := by
    rw [load, before, Nat.sub_self]
    rfl
  refine ⟨_, loaded ▸ found, onTrack_before reached _ _ _, ?_, fun one => ?_⟩
  · rw [drop_position reached]
    rfl
  · have fewer := reached.length_le
    exact serves_before ended reached _ (by omega) one

/-- `λx`, the end, and `)` behind it. -/
def unfinished : List Token :=
  [⟨.lambda, "λ", 1, 1, 1⟩, ⟨.ident, "x", 1, 2, 1⟩, ⟨.eof, "", 1, 3, 0⟩, ⟨.rparen, ")", 1, 4, 1⟩]

/-- The first call fails at the end, and no later call gets beyond it. -/
theorem calls_in_range_unfinished : ∃ now, ((new 1).load unfinished).calls 20 [.next] =
      some ([.next (.error (.atToken ⟨.eof, "", 1, 3, 0⟩ .noDot))], now) ∧
    OnTrack unfinished now ∧
    Parser.mk (unfinished.drop now.position) now.nextId = ⟨unfinished.drop 2, 1⟩ ∧
    ∀ one, ∃ after, Serves unfinished 20 ⟨unfinished.drop 2, 1⟩ now one after :=
  calls_in_range (new 1) (Or.inr ⟨⟨.eof, "", 1, 3, 0⟩, by decide, rfl⟩) (by decide) [.next]

end Cursor

end UntypedLambda
