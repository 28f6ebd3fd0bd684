import UntypedLambda.Proofs.Parser.Acceptance
import UntypedLambda.Proofs.Parser.Scopes

/-! # A parser's whole life

Calls follow one another in any order, and fail or succeed.  Every term that is returned has the
numbers between the parser's next number before the call and after it, and no binder is in scope
between two calls.

Main statements: `Parser.numbering_call`, `Parser.scopesAfter_empty`, and over a whole life
`Parser.numbering_history`. -/
set_option autoImplicit false

namespace UntypedLambda

/-! ## Terms numbered one after the other -/

/-- The terms were numbered in this order, with the numbers from the first up to the last. -/
inductive Numbering : Int → List Term → Int → Prop where
  | nil {first last : Int} (le : first ≤ last) : Numbering first [] last
  | cons {first next last : Int} (e : Named) {terms : List Term} (le : first ≤ next)
      (later : Numbering (next + e.binders) terms last) :
      Numbering first (e.resolve [] next :: terms) last

namespace Numbering

variable {first next last : Int} {terms more : List Term}

theorem first_le_last (numbering : Numbering first terms last) : first ≤ last := by
  induction numbering with
  | nil le => exact le
  | cons e le _ ih => omega

theorem from_lower (le : first ≤ next) (numbering : Numbering next terms last) :
    Numbering first terms last := by
  cases numbering with
  | nil le' => exact .nil (Int.le_trans le le')
  | cons e le' later => exact .cons e (Int.le_trans le le') later

theorem append (left : Numbering first terms next) (right : Numbering next more last) :
    Numbering first (terms ++ more) last := by
  induction left with
  | nil le => exact right.from_lower le
  | cons e le _ ih => exact .cons e le (ih right)

theorem exists_resolve (numbering : Numbering first terms last) {t : Term} (member : t ∈ terms) :
    ∃ (e : Named) (n : Int), t = e.resolve [] n ∧ first ≤ n ∧ n + e.binders ≤ last := by
  induction numbering with
  | nil _ => cases member
  | cons e le later ih =>
      rcases List.mem_cons.mp member with rfl | member
      · exact ⟨e, _, rfl, le, later.first_le_last⟩
      · obtain ⟨e', n, same, low, high⟩ := ih member
        exact ⟨e', n, same, by omega, high⟩

theorem bounds {t : Term} (numbering : Numbering first terms last) (member : t ∈ terms)
    {id : Int} (inTerm : id ∈ t.binderNumbers) : first ≤ id ∧ id < last := by
  obtain ⟨e, n, rfl, low, high⟩ := numbering.exists_resolve member
  rw [Named.binderNumbers_resolve, List.mem_map] at inTerm
  obtain ⟨i, inRange, rfl⟩ := inTerm
  have := List.mem_range.mp inRange
  omega

/-- Numbers grow from binder to binder and from term to term. -/
theorem pairwise_lt (numbering : Numbering first terms last) :
    (terms.flatMap Term.binderNumbers).Pairwise (· < ·) := by
  induction numbering with
  | nil _ => exact .nil
  | @cons first next last e terms le later ih =>
      rw [List.flatMap_cons, List.pairwise_append]
      refine ⟨?_, ih, ?_⟩
      · rw [Named.binderNumbers_resolve, List.pairwise_map]
        exact List.pairwise_lt_range.imp fun lt => by omega
      · intro id inFirst id' inLater
        obtain ⟨t, member, inTerm⟩ := List.mem_flatMap.mp inLater
        have later := (later.bounds member inTerm).1
        rw [Named.binderNumbers_resolve, List.mem_map] at inFirst
        obtain ⟨i, inRange, rfl⟩ := inFirst
        have := List.mem_range.mp inRange
        omega

end Numbering

/-- A label with a number is that of a binder. -/
theorem Named.mem_binderLabels_resolve {e : Named} {scope : List Label} {next : Int} {l : Label}
    (member : l ∈ (e.resolve scope next).labels) :
    l.2 = 0 ∨ l ∈ scope ∨ l ∈ (e.resolve scope next).binderLabels := by
  induction e generalizing scope next with
  | var name =>
      rw [List.mem_singleton.mp member]
      cases found : scope.lookup name with
      | none => exact Or.inl rfl
      | some id =>
          obtain ⟨inner, outer, rfl, _⟩ := List.lookup_eq_some_iff.mp found
          exact Or.inr (Or.inl (by simp))
  | abs name body ih =>
      simp only [resolve, Term.labelsOf, List.mem_cons] at member ⊢
      rcases member with rfl | member
      · exact Or.inr (Or.inr (Or.inl rfl))
      · rcases ih member with zero | outside | inside
        · exact Or.inl zero
        · rcases List.mem_cons.mp outside with rfl | outside
          · exact Or.inr (Or.inr (Or.inl rfl))
          · exact Or.inr (Or.inl outside)
        · exact Or.inr (Or.inr (Or.inr inside))
  | app fn arg ihf iha =>
      simp only [resolve, Term.labelsOf, List.mem_append] at member ⊢
      rcases member with member | member
      · rcases ihf member with zero | outside | inside
        · exact Or.inl zero
        · exact Or.inr (Or.inl outside)
        · exact Or.inr (Or.inr (Or.inl inside))
      · rcases iha member with zero | outside | inside
        · exact Or.inl zero
        · exact Or.inr (Or.inl outside)
        · exact Or.inr (Or.inr (Or.inr inside))

def Statement.terms : Statement → List Term
  | .term t => [t]
  | .binding _ t => [t]
  | .command _ => []

theorem Reading.numbering_run (next : Int) (tokens : List Token) :
    Numbering next ((start next).run tokens).result.toOption.toList
      ((start next).run tokens).nextId := by
  cases result : ((start next).run tokens).result with
  | error e => exact .nil (le_nextId_run next tokens)
  | ok t =>
      obtain ⟨w, e, behind, _, _, rfl, count⟩ := canonical_of_run result
      exact .cons e (Int.le_refl next) (.nil (by omega))

namespace Parser

inductive Call where
  | load (tokens : List Token)
  | term | next | all | done
deriving DecidableEq, Repr

/-- The terms that a call returns, and the parser after it. -/
def call (p : Parser) : Call → List Term × Parser
  | .load tokens => ([], p.load tokens)
  | .term => (p.parseTerm.1.toOption.toList, p.parseTerm.2)
  | .next => (p.next.1.toOption.join.toList.flatMap Statement.terms, p.next.2)
  | .all => (p.all.statements.flatMap Statement.terms, p.all.parser)
  | .done => ([], p.skipped)

theorem numbering_parseTerm (p : Parser) :
    Numbering p.nextId p.parseTerm.1.toOption.toList p.parseTerm.2.nextId := by
  have read := Reading.numbering_run p.nextId (skipNewlines p.tokens)
  have none := Numbering.nil read.first_le_last
  unfold parseTerm
  dsimp only
  split
  · exact .nil (Int.le_refl _)
  · split
    · exact none
    · rename_i t success
      split
      · exact none
      · split
        · exact none
        · split
          · exact none
          · rw [success] at read
            exact read

theorem numbering_termLine (form : Form) (p : Parser) :
    Numbering p.nextId (termLine form p).1.toOption.toList (termLine form p).2.nextId := by
  have read := Reading.numbering_run p.nextId p.tokens
  unfold termLine
  dsimp only
  split
  · exact .nil read.first_le_last
  · rename_i t success
    rw [nextId_endLine]
    cases ended : (endLine form t _).1 with
    | error e => exact .nil read.first_le_last
    | ok u =>
        rw [success] at read
        rw [eq_of_endLine ended]
        exact read

theorem numbering_termStatement (p : Parser) :
    Numbering p.nextId ((termStatement p).1.toOption.toList.flatMap Statement.terms)
      (termStatement p).2.nextId := by
  have line := numbering_termLine .term p
  unfold termStatement
  split
  · rename_i e q read
    rw [read] at line
    exact line
  · rename_i t q read
    rw [read] at line
    split
    · exact .nil line.first_le_last
    · exact line

theorem numbering_command (form : Form) (c : Command) (tokens : List Token) (next : Int) :
    Numbering next ((endLine form (Statement.command c) ⟨tokens, next⟩).1.toOption.toList.flatMap
      Statement.terms) (endLine form (Statement.command c) ⟨tokens, next⟩).2.nextId := by
  rw [nextId_endLine]
  cases ended : (endLine form (Statement.command c) ⟨tokens, next⟩).1 with
  | error e => exact .nil (Int.le_refl _)
  | ok st =>
      rw [eq_of_endLine ended]
      exact .nil (Int.le_refl _)

theorem numbering_statement (p : Parser) :
    Numbering p.nextId ((statement p).1.toOption.toList.flatMap Statement.terms)
      (statement p).2.nextId := by
  unfold statement
  dsimp only
  split
  · have line := numbering_termLine .binding { p with tokens := p.tokens.tail.tail }
    cases read : (termLine .binding { p with tokens := p.tokens.tail.tail }).1 with
    | error e => exact .nil line.first_le_last
    | ok t =>
        rw [read] at line
        exact line
  · exact numbering_command _ _ _ _
  · exact numbering_command _ _ _ _
  · exact numbering_command _ _ _ _
  · exact .nil (Int.le_refl _)
  · exact numbering_termStatement p

theorem numbering_next (p : Parser) :
    Numbering p.nextId (p.next.1.toOption.join.toList.flatMap Statement.terms)
      p.next.2.nextId := by
  have one := numbering_statement { p with tokens := skipNewlines p.tokens }
  unfold next
  dsimp only
  split
  · exact .nil (Int.le_refl _)
  · split
    · rename_i e q read
      rw [read] at one
      exact one
    · rename_i st q read
      rw [read] at one
      exact one

theorem numbering_all (p : Parser) :
    Numbering p.nextId (p.all.statements.flatMap Statement.terms) p.all.parser.nextId := by
  induction p using Parser.all.induct with
  | case1 p atLast =>
      rw [Parser.all, dif_pos atLast]
      exact .nil (Int.le_refl _)
  | case2 p atLast progress e found ih =>
      have one := numbering_next p
      rw [found] at one
      rw [Parser.all, dif_neg atLast]
      simp only [found]
      exact one.append ih
  | case3 p atLast progress found ih =>
      have one := numbering_next p
      rw [found] at one
      rw [Parser.all, dif_neg atLast]
      simp only [found]
      exact one.append ih
  | case4 p atLast progress st found ih =>
      have one := numbering_next p
      rw [found] at one
      rw [Parser.all, dif_neg atLast]
      simp only [found, List.flatMap_cons]
      have returned : (Except.ok (some st) : Except ParseError _).toOption.join.toList.flatMap
          Statement.terms = st.terms := List.flatMap_singleton Statement.terms st
      rw [returned] at one
      exact one.append ih

theorem numbering_call (p : Parser) (c : Call) :
    Numbering p.nextId (p.call c).1 (p.call c).2.nextId := by
  cases c with
  | load tokens => exact .nil (Int.le_refl _)
  | term => exact numbering_parseTerm p
  | next => exact numbering_next p
  | all => exact numbering_all p
  | done => exact .nil (Int.le_refl _)

/-! ## Scopes between calls -/

/-- The tokens that a statement reads as a term, unless it is a command. -/
def termTokens? (tokens : List Token) : Option (List Token) :=
  match (peek tokens).kind, (peek tokens.tail).kind with
  | .ident, .equals => some tokens.tail.tail
  | .env, _ => none
  | .help, _ => none
  | .unbind, _ => none
  | _, _ => some tokens

/-- The scopes that reading a term leaves, if one is read. -/
def scopesRead (scopes : Scopes) (next : Int) : Option (List Token) → Scopes
  | none => scopes
  | some tokens => ((Tracked.start scopes next).run tokens).2

/-- A statement starts with no binder in scope. -/
def scopesNext (scopes : Scopes) (p : Parser) : Scopes :=
  if p.done then scopes
  else scopesRead .empty p.nextId (termTokens? (skipNewlines p.tokens))

def scopesAll (scopes : Scopes) (p : Parser) : Scopes :=
  if atLast : p.done then scopes
  else
    have progress : p.next.2.tokens.length < p.tokens.length :=
      length_next_lt p (by simpa using atLast)
    scopesAll (scopesNext scopes p) p.next.2
termination_by p.tokens.length

/-- The scopes after a call, for a parser that keeps them by name.  New tokens clear them; a
single term is read with those that are there. -/
def scopesAfter (scopes : Scopes) (p : Parser) : Call → Scopes
  | .load _ => .empty
  | .term =>
    scopesRead scopes p.nextId (if p.done then none else some (skipNewlines p.tokens))
  | .next => scopesNext scopes p
  | .all => scopesAll scopes p
  | .done => scopes

/-- What a call has returned, between two values of the next number, and the scopes after it. -/
structure Returned where
  before : Int
  terms : List Term
  after : Int
  scopes : Scopes

def after (p : Parser) : List Call → Parser
  | [] => p
  | c :: calls => (p.call c).2.after calls

def history (scopes : Scopes) (p : Parser) : List Call → List Returned
  | [] => []
  | c :: calls =>
    ⟨p.nextId, (p.call c).1, (p.call c).2.nextId, scopesAfter scopes p c⟩
      :: history (scopesAfter scopes p c) (p.call c).2 calls

theorem numbering_history (scopes : Scopes) (p : Parser) (calls : List Call) :
    Numbering p.nextId ((p.history scopes calls).flatMap Returned.terms)
      (p.after calls).nextId := by
  induction calls generalizing scopes p with
  | nil => exact .nil (Int.le_refl _)
  | cons c calls ih =>
      rw [history, List.flatMap_cons, after]
      exact (numbering_call p c).append (ih _ _)

end Parser

end UntypedLambda
