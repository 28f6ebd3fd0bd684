import UntypedLambda.Proofs.Term.Printing

/-! # What is known of a term that was read

A term that a parser returns was read from a part of its tokens, starting with its next number.
So its names are identifiers, its binders have the numbers that were given out meanwhile, and
names and numbers can be entered into the ledger of all that was read before.

Main statements: `Parser.read_parseTerm`, `Parser.read_next`. -/
set_option autoImplicit false

namespace UntypedLambda

/-- The term was read while the next number went from `low` to `high`. -/
structure Term.Read (low high : Int) (t : Term) : Prop where
  identifiers : ∀ l ∈ t.labels, IsIdentifier l.1
  numbering : Numbering low [t] high
  entered : ∀ ledger : Ledger, ledger.next = low →
    ∃ ledger', ledger.Extends ledger' ∧ ledger'.next = high ∧ t.Resolved ledger' []

namespace Term.Read

variable {low high : Int} {t : Term}

theorem bounds (read : t.Read low high) {id : Int} (member : id ∈ t.binderNumbers) :
    low ≤ id ∧ id < high :=
  read.numbering.bounds List.mem_cons_self member

theorem nodup (read : t.Read low high) : t.binderNumbers.Nodup := by
  have increasing := read.numbering.pairwise_lt
  rw [List.flatMap_singleton] at increasing
  exact increasing.imp Int.ne_of_lt

end Term.Read

namespace Parser

def Identifiers (tokens : List Token) : Prop :=
  ∀ token ∈ tokens, token.kind = .ident → IsIdentifier token.lexeme

theorem identifiers_scan (source : String) : Identifiers (Token.scan source).tokens :=
  fun _ member => Token.isIdentifier_of_mem_scan member

theorem Identifiers.suffix {tokens rest : List Token} (identifiers : Identifiers tokens)
    (part : rest <:+ tokens) : Identifiers rest :=
  fun token member => identifiers token (part.subset member)

theorem Identifiers.words {tokens : List Token} (identifiers : Identifiers tokens) :
    Words tokens :=
  fun token member ident => (identifiers token member ident).1

theorem Identifiers.run {tokens : List Token} (identifiers : Identifiers tokens) {next : Int}
    {t : Term} (success : ((Reading.start next).run tokens).result = .ok t) :
    ∀ l ∈ t.labels, IsIdentifier l.1 := by
  intro l member
  obtain ⟨w, e, behind, split, canonical, rfl, _⟩ := Reading.canonical_of_run success
  have inNames : l.1 ∈ e.names := by
    rw [← e.map_fst_labels_resolve [] next]
    exact List.mem_map_of_mem member
  obtain ⟨token, inside, isIdent, same⟩ := canonical.exists_ident inNames
  rw [← same]
  apply identifiers token _ isIdent
  rw [split]
  exact List.mem_append_left _ inside

/-! ## A single term -/

theorem run_of_parseTerm {p : Parser} {t : Term} (success : p.parseTerm.1 = .ok t) :
    ((Reading.start p.nextId).run (skipNewlines p.tokens)).result = .ok t := by
  unfold parseTerm at success
  dsimp only at success
  split at success
  · cases success
  · split at success
    · cases success
    · rename_i u read
      split at success
      · cases success
      · split at success
        · cases success
        · split at success
          · cases success
          · cases success
            exact read

theorem read_parseTerm {p : Parser} (identifiers : Identifiers p.tokens) {t : Term}
    (success : p.parseTerm.1 = .ok t) : t.Read p.nextId p.parseTerm.2.nextId where
  identifiers :=
    (identifiers.suffix (skipNewlines_suffix p.tokens)).run (run_of_parseTerm success)
  numbering := by
    have numbering := numbering_parseTerm p
    rw [success] at numbering
    exact numbering
  entered := by
    intro ledger first
    obtain ⟨ledger', grown, last, resolved⟩ :=
      parseTerm_resolves first.symm identifiers.words
    exact ⟨ledger', grown, last.symm, resolved t success⟩

/-! ## Statements -/

theorem run_of_termLine {form : Form} {p : Parser} {t : Term}
    (success : (termLine form p).1 = .ok t) :
    ((Reading.start p.nextId).run p.tokens).result = .ok t := by
  unfold termLine at success
  dsimp only at success
  split at success
  · cases success
  · rename_i u read
    rw [eq_of_endLine success]
    exact read

theorem run_of_termStatement {p : Parser} {st : Statement}
    (success : (termStatement p).1 = .ok st) {t : Term} (member : t ∈ st.terms) :
    ((Reading.start p.nextId).run p.tokens).result = .ok t := by
  unfold termStatement at success
  split at success
  · cases success
  · rename_i u q read
    split at success
    · cases success
    · cases success
      rw [List.mem_singleton.mp member]
      exact run_of_termLine (by rw [read])

theorem run_of_statement {p : Parser} {st : Statement} (success : (statement p).1 = .ok st)
    {t : Term} (member : t ∈ st.terms) :
    ∃ tokens, tokens <:+ p.tokens ∧ ((Reading.start p.nextId).run tokens).result = .ok t := by
  -- a command has no term
  have command : ∀ {form : Form} {c : Command} {q : Parser},
      (endLine form (Statement.command c) q).1 = .ok st → False := by
    intro form c q ended
    rw [eq_of_endLine ended] at member
    cases member
  unfold statement at success
  dsimp only at success
  split at success
  · dsimp only at success
    cases read : (termLine .binding { p with tokens := p.tokens.tail.tail }).1 with
    | error e =>
        rw [read] at success
        cases success
    | ok u =>
        rw [read] at success
        cases success
        rw [List.mem_singleton.mp member]
        exact ⟨p.tokens.tail.tail, (List.tail_suffix _).trans (List.tail_suffix _),
          run_of_termLine read⟩
  · exact (command success).elim
  · exact (command success).elim
  · exact (command success).elim
  · cases success
  · exact ⟨p.tokens, List.suffix_rfl, run_of_termStatement success member⟩

theorem run_of_next {p : Parser} {st : Statement} (success : p.next.1 = .ok (some st)) {t : Term}
    (member : t ∈ st.terms) :
    ∃ tokens, tokens <:+ p.tokens ∧ ((Reading.start p.nextId).run tokens).result = .ok t := by
  unfold next at success
  dsimp only at success
  split at success
  · cases success
  · split at success
    · cases success
    · rename_i st' q read
      cases success
      obtain ⟨tokens, part, run⟩ := @run_of_statement
        { p with tokens := skipNewlines p.tokens } st (by rw [read]) t member
      exact ⟨tokens, part.trans (skipNewlines_suffix p.tokens), run⟩

theorem read_next {p : Parser} (identifiers : Identifiers p.tokens) {st : Statement}
    (success : p.next.1 = .ok (some st)) {t : Term} (only : st.terms = [t]) :
    t.Read p.nextId p.next.2.nextId where
  identifiers := by
    obtain ⟨tokens, part, run⟩ := @run_of_next p st success t (by simp [only])
    exact (identifiers.suffix part).run run
  numbering := by
    have numbering := numbering_next p
    rw [success] at numbering
    have returned : (Except.ok (some st) : Except ParseError _).toOption.join.toList.flatMap
        Statement.terms = st.terms := List.flatMap_singleton Statement.terms st
    rw [returned, only] at numbering
    exact numbering
  entered := by
    intro ledger first
    obtain ⟨ledger', grown, last, resolved⟩ := next_resolves first.symm identifiers.words
    refine ⟨ledger', grown, last.symm, ?_⟩
    have whole := resolved st success
    cases st with
    | term u =>
        cases only
        exact whole
    | binding name u =>
        cases only
        exact whole
    | command c => cases only

end Parser

end UntypedLambda
