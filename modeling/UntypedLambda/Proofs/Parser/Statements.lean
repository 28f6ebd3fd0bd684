import UntypedLambda.Proofs.Parser.Lines
import UntypedLambda.Proofs.Parser.SingleTerm

/-! # Single terms as statements

A text that is a single term is also a text with one statement: it can begin like no other form
of statement, and only newlines are left behind it.

Main statement: `Parser.next_of_parseTerm`. -/
set_option autoImplicit false

namespace UntypedLambda.Parser

open Grammar

theorem skipNewlines_of_peek {tokens : List Token} (other : (peek tokens).kind ≠ .newline) :
    skipNewlines tokens = tokens := by
  cases tokens with
  | nil => rfl
  | cons token rest => exact skipNewlines_of_head other rest

/-- The kinds of the first two tokens of a term and what follows it. -/
theorem kinds_of_canonical {w : List Token} {e : Named} {behind : List Nat}
    (canonical : Canonical .term w e behind) {newline : Token}
    (isNewline : newline.kind = .newline) (rest : List Token) :
    IsTermKind (peek (w ++ newline :: rest)).kind ∧
      (peek (w ++ newline :: rest).tail).kind ≠ .equals := by
  obtain ⟨first, w', rfl⟩ := List.exists_cons_of_ne_nil canonical.derives.ne_nil
  refine ⟨canonical.isTermKind List.mem_cons_self, ?_⟩
  rw [List.cons_append, List.tail_cons, peek_append]
  cases w' with
  | nil => simp [isNewline]
  | cons second w' =>
      intro same
      have kind : IsTermKind second.kind := canonical.isTermKind (by simp)
      rw [List.headD_cons] at same
      simp [IsTermKind, same] at kind

/-- A term that is not refused is read as a statement up to the newline behind it. -/
theorem statement_of_canonical {w : List Token} {e : Named} {behind : List Nat}
    (canonical : Canonical .term w e behind) {newline : Token}
    (isNewline : newline.kind = .newline) (rest : List Token) {next : Int}
    (terminates : (e.resolve [] next).isNonTerminating = false) :
    statement ⟨w ++ newline :: rest, next⟩ =
      (.ok (.term (e.resolve [] next)), ⟨rest, next + e.binders⟩) := by
  have stops : Reading.Stops newline := by simp [Reading.Stops, isNewline]
  have read := Reading.run_of_canonical canonical stops rest next
  obtain ⟨first, second⟩ := kinds_of_canonical canonical isNewline rest
  generalize w ++ newline :: rest = tokens at read first second
  have line : termLine .term ⟨tokens, next⟩ =
      (.ok (e.resolve [] next), ⟨rest, next + e.binders⟩) := by
    simp only [termLine, read, endLine, peek, List.headD_cons, isNewline, if_true, List.tail_cons]
  have others : (peek tokens).kind ≠ .env ∧ (peek tokens).kind ≠ .help ∧
      (peek tokens).kind ≠ .unbind := by
    rcases first with kind | kind | kind | kind | kind <;> simp [kind]
  rw [statement_term (p := ⟨tokens, next⟩) (fun _ => second) others.1 others.2.1 others.2.2]
  simp only [termStatement, line, terminates, Bool.false_eq_true, if_false]

theorem nextId_parseTerm {p : Parser} (more : atEnd (skipNewlines p.tokens) = false) :
    p.parseTerm.2.nextId = ((Reading.start p.nextId).run (skipNewlines p.tokens)).nextId := by
  unfold parseTerm
  dsimp only
  rw [more]
  simp only [Bool.false_eq_true, if_false]
  repeat' split
  all_goals rfl

theorem next_of_parseTerm {p : Parser} {t : Term} (success : p.parseTerm.1 = .ok t) :
    p.done = false ∧ p.next.1 = .ok (some (.term t)) ∧ p.next.2.done = true ∧
      p.next.2.nextId = p.parseTerm.2.nextId := by
  obtain ⟨before, w, after, rest, e, behind, split, isBefore, isAfter, nonempty, ended, canonical,
    rfl, terminates⟩ := exists_canonical_of_parseTerm success
  obtain ⟨newline, after, rfl⟩ := List.exists_cons_of_ne_nil nonempty
  have isNewline : newline.kind = .newline := isAfter newline List.mem_cons_self
  have stops : Reading.Stops newline := by simp [Reading.Stops, isNewline]
  have read := Reading.run_of_canonical canonical stops (after ++ rest) p.nextId
  have statement := statement_of_canonical canonical isNewline (after ++ rest) terminates
  obtain ⟨first, _⟩ := kinds_of_canonical canonical isNewline (after ++ rest)
  have front : skipNewlines p.tokens = w ++ newline :: (after ++ rest) := by
    rw [split, skipNewlines_append isBefore, List.cons_append]
    apply skipNewlines_of_peek
    intro same
    simp [IsTermKind, same] at first
  have back : skipNewlines (after ++ rest) = rest := by
    rw [skipNewlines_append fun token member => isAfter token (List.mem_cons_of_mem _ member)]
    apply skipNewlines_of_peek
    intro same
    simp [Parser.atEnd, same] at ended
  have begun : atEnd (w ++ newline :: (after ++ rest)) = false := by
    rw [Parser.atEnd]
    rcases first with kind | kind | kind | kind | kind <;> rw [kind] <;> rfl
  have next : p.next =
      (.ok (some (.term (e.resolve [] p.nextId))), ⟨after ++ rest, p.nextId + e.binders⟩) := by
    simp only [Parser.next, front, begun, statement, Bool.false_eq_true, if_false]
  refine ⟨?_, ?_, ?_, ?_⟩
  · rw [Parser.done, Parser.skipped, front, begun]
  · rw [next]
  · rw [next, Parser.done, Parser.skipped, back, ended]
  · rw [next, nextId_parseTerm (front ▸ begun), front, read]

end UntypedLambda.Parser
