import Mathlib.Data.List.TakeWhile
import UntypedLambda.Proofs.Parser.Lifetime

/-! # Texts that are a single term

Main statement: `Parser.parseTerm_eq_ok_iff`, such a text is read exactly if it is a term of the
grammar with newlines around it and not the looping shape, and then as the tree whose bodies
reach as far to the right as they can. -/
set_option autoImplicit false

namespace UntypedLambda

namespace Grammar

def IsTermKind (kind : Token.Kind) : Prop :=
  kind = .lparen ∨ kind = .rparen ∨ kind = .lambda ∨ kind = .dot ∨ kind = .ident

theorem Opening.isTermKind {front : List Token} {names : List String}
    (opening : Opening front names) {token : Token} (member : token ∈ front) :
    IsTermKind token.kind := by
  obtain @⟨opening, dot, params, isLambda, _, idents, isDot⟩ := opening
  simp only [List.mem_cons, List.mem_append, List.not_mem_nil, or_false] at member
  rcases member with rfl | param | rfl
  · simp [IsTermKind, isLambda]
  · simp [IsTermKind, idents token param]
  · simp [IsTermKind, isDot]

theorem Canonical.isTermKind {part : Part} {w : List Token} {e : Named} {behind : List Nat}
    (canonical : Canonical part w e behind) {token : Token} (member : token ∈ w) :
    IsTermKind token.kind := by
  induction canonical with
  | ident isIdent =>
      rw [List.mem_singleton.mp member]
      simp [IsTermKind, isIdent]
  | group isLeft isRight _ ih =>
      simp only [List.mem_cons, List.mem_append, List.not_mem_nil, or_false] at member
      rcases member with rfl | inside | rfl
      · simp [IsTermKind, isLeft]
      · exact ih inside
      · simp [IsTermKind, isRight]
  | single _ ih => exact ih member
  | apply _ _ ihf iha => exact (List.mem_append.mp member).elim ihf iha
  | lambda opening _ ih => exact (List.mem_append.mp member).elim opening.isTermKind ih
  | plain _ ih => exact ih member
  | outer _ ih => exact ih member
  | last _ _ ihf iha => exact (List.mem_append.mp member).elim ihf iha

end Grammar

namespace Parser

open Grammar

def Newlines (tokens : List Token) : Prop := ∀ token ∈ tokens, token.kind = .newline

theorem skipNewlines_append {before : List Token} (newlines : Newlines before)
    (rest : List Token) : skipNewlines (before ++ rest) = skipNewlines rest := by
  apply List.dropWhile_append_of_pos
  intro token member
  simp [newlines token member]

theorem skipNewlines_of_head {token : Token} (other : token.kind ≠ .newline)
    (rest : List Token) : skipNewlines (token :: rest) = token :: rest := by
  simp [skipNewlines, other]

theorem peek_skipNewlines (tokens : List Token) :
    (peek (skipNewlines tokens)).kind ≠ .newline := by
  induction tokens with
  | nil => simp [skipNewlines, peek, Token.missing]
  | cons token rest ih =>
      by_cases isNewline : token.kind = .newline
      · have dropped : skipNewlines (token :: rest) = skipNewlines rest := by
          simp [skipNewlines, isNewline]
        rw [dropped]
        exact ih
      · rw [skipNewlines_of_head isNewline]
        exact isNewline

theorem exists_newlines (tokens : List Token) :
    ∃ before, Newlines before ∧ tokens = before ++ skipNewlines tokens := by
  refine ⟨tokens.takeWhile (·.kind == .newline), ?_, ?_⟩
  · intro token member
    simpa using List.mem_takeWhile_imp member
  · exact List.takeWhile_append_dropWhile.symm

theorem parseTerm_of_canonical {before w after : List Token} {eof : Token} {e : Named}
    {behind : List Nat} (isBefore : Newlines before) (isAfter : Newlines after)
    (ended : after ≠ []) (atEnd : eof.kind = .eof) (canonical : Canonical .term w e behind)
    (next : Int) : (Parser.mk (before ++ (w ++ (after ++ [eof]))) next).parseTerm.1 =
      if (e.resolve [] next).isNonTerminating then .error .nonTerminating
      else .ok (e.resolve [] next) := by
  obtain ⟨first, w', rfl⟩ := List.exists_cons_of_ne_nil canonical.derives.ne_nil
  obtain ⟨newline, after, rfl⟩ := List.exists_cons_of_ne_nil ended
  have firstKind := canonical.isTermKind List.mem_cons_self
  have isNewline : newline.kind = .newline := isAfter newline List.mem_cons_self
  have notNewline : first.kind ≠ .newline := by
    intro same
    simp [IsTermKind, same] at firstKind
  have notEnd : first.kind ≠ .eof := by
    intro same
    simp [IsTermKind, same] at firstKind
  have front : skipNewlines (before ++ (first :: w' ++ (newline :: after ++ [eof]))) =
      first :: w' ++ newline :: (after ++ [eof]) := by
    rw [skipNewlines_append isBefore]
    exact skipNewlines_of_head notNewline _
  have stops : Reading.Stops newline := by simp [Reading.Stops, isNewline]
  have read := Reading.run_of_canonical canonical stops (after ++ [eof]) next
  have back : skipNewlines (newline :: (after ++ [eof])) = [eof] := by
    rw [← List.cons_append, skipNewlines_append isAfter]
    exact skipNewlines_of_head (by simp [atEnd]) _
  have notAtEnd : Parser.atEnd (first :: w' ++ newline :: (after ++ [eof])) = false := by
    simp [Parser.atEnd, peek, notEnd]
  unfold parseTerm
  dsimp only
  rw [front, notAtEnd, read]
  simp only [Bool.false_eq_true, if_false]
  rw [back]
  simp only [peek, List.headD_cons, isNewline, ne_eq, not_true_eq_false, if_false,
    Parser.atEnd, atEnd, beq_self_eq_true, Bool.not_true, Bool.false_eq_true]
  split <;> rfl

theorem exists_canonical_of_parseTerm {p : Parser} {t : Term} (success : p.parseTerm.1 = .ok t) :
    ∃ before w after rest e behind, p.tokens = before ++ (w ++ (after ++ rest)) ∧
      Newlines before ∧ Newlines after ∧ after ≠ [] ∧ atEnd rest = true ∧
      Canonical .term w e behind ∧ t = e.resolve [] p.nextId ∧ t.isNonTerminating = false := by
  unfold parseTerm at success
  dsimp only at success
  split at success
  · cases success
  · split at success
    · cases success
    · rename_i u read
      split at success
      · cases success
      · rename_i isNewline
        split at success
        · cases success
        · rename_i isEnd
          split at success
          · cases success
          · rename_i terminates
            cases success
            obtain ⟨w, e, behind, split, canonical, result, _⟩ := Reading.canonical_of_run read
            obtain ⟨before, isBefore, tokens⟩ := exists_newlines p.tokens
            obtain ⟨after, isAfter, rest⟩ :=
              exists_newlines ((Reading.start p.nextId).run (skipNewlines p.tokens)).rest
            refine ⟨before, w, after, skipNewlines _, e, behind, ?_, isBefore, isAfter, ?_,
              Bool.of_not_eq_false (by simpa using isEnd), canonical, result,
              Bool.eq_false_iff.mpr terminates⟩
            · rw [← rest, ← split]
              exact tokens
            · rintro rfl
              rw [List.nil_append] at rest
              rw [rest] at isNewline
              exact isNewline (peek_skipNewlines _)

theorem reads_unique {w : List Token} (isTerm : IsTerm w) : ∃! e, Reads w e := by
  obtain ⟨_, _, derived⟩ := isTerm
  obtain ⟨e, reads⟩ := derived.reads
  obtain ⟨_, canonical⟩ := canonical_of_reads reads
  refine ⟨e, reads, ?_⟩
  intro e' reads'
  obtain ⟨_, canonical'⟩ := canonical_of_reads reads'
  exact Reading.eq_of_canonical canonical' canonical

/-- Of a list that ends with its only end token, what stands before a part that starts at the
end is all but that token. -/
theorem eq_of_append_end {tokens front rest : List Token} {eof : Token}
    (only : ∀ token ∈ tokens, token.kind ≠ .eof) (isEof : eof.kind = .eof)
    (split : tokens ++ [eof] = front ++ rest) (before : ∀ token ∈ front, token.kind ≠ .eof)
    (ended : atEnd rest = true) : tokens = front := by
  cases rest with
  | nil =>
      rw [List.append_nil] at split
      have member : eof ∈ front := by
        rw [← split]
        exact List.mem_append_right _ List.mem_cons_self
      exact absurd isEof (before eof member)
  | cons token rest =>
      have kind : token.kind = .eof := by simpa [atEnd, peek] using ended
      rcases List.append_eq_append_iff.mp split with ⟨more, same, later⟩ | ⟨more, same, later⟩
      · cases more with
        | nil => rw [same, List.append_nil]
        | cons first more =>
            have isFirst : eof = first := by
              simp only [List.cons_append, List.cons.injEq] at later
              exact later.1
            have member : eof ∈ front := by simp [same, isFirst]
            exact absurd isEof (before eof member)
      · cases more with
        | nil => rw [same, List.append_nil]
        | cons first more =>
            have isFirst : token = first := by
              simp only [List.cons_append, List.cons.injEq] at later
              exact later.1
            have member : token ∈ tokens := by simp [same, isFirst]
            exact absurd kind (only token member)

theorem one_le_nextId_after (startId : Int) (calls : List Call) :
    1 ≤ ((Parser.new startId).after calls).nextId := by
  have grown := (numbering_history .empty (Parser.new startId) calls).first_le_last
  have first : 1 ≤ (Parser.new startId).nextId := Int.le_max_right _ _
  exact Int.le_trans first grown

/-- A parser with any calls behind it reads the tokens of a single term exactly if they are
derived from the grammar, with newlines around them and at least one behind, and are not the
looping shape.  The tree is then the one that the grammar gives to the tokens when each body
reaches as far to the right as it can, numbered from the next number on. -/
theorem parseTerm_eq_ok_iff (startId : Int) (calls : List Call) {tokens : List Token}
    {eof : Token} (isEof : eof.kind = .eof) (only : ∀ token ∈ tokens, token.kind ≠ .eof) :
    (∀ w, IsTerm w → ∃! e, Reads w e) ∧
    ∀ t, (((Parser.new startId).after calls).load (tokens ++ [eof])).parseTerm.1 = .ok t ↔
      ∃ before w after e, tokens = before ++ w ++ after ∧ Newlines before ∧ Newlines after ∧
        after ≠ [] ∧ IsTerm w ∧ Reads w e ∧ e.isLoop = false ∧
        t = e.resolve [] ((Parser.new startId).after calls).nextId := by
  refine ⟨fun w isTerm => reads_unique isTerm, ?_⟩
  intro t
  have positive := one_le_nextId_after startId calls
  constructor
  · intro success
    obtain ⟨before, w, after, rest, e, behind, split, isBefore, isAfter, nonempty, ended,
      canonical, rfl, terminates⟩ := exists_canonical_of_parseTerm success
    have noEnd : ∀ token ∈ before ++ w ++ after, token.kind ≠ .eof := by
      intro token member isEnd
      simp only [List.mem_append] at member
      rcases member with (inBefore | inTerm) | inAfter
      · simp [isBefore token inBefore] at isEnd
      · simpa [IsTermKind, isEnd] using canonical.isTermKind inTerm
      · simp [isAfter token inAfter] at isEnd
    have all : tokens ++ [eof] = (before ++ w ++ after) ++ rest := by
      rw [List.append_assoc, List.append_assoc]
      exact split
    refine ⟨before, w, after, e, eq_of_append_end only isEof all noEnd ended, isBefore, isAfter,
      nonempty, ⟨e, behind, canonical.derives⟩, Canonical.reads canonical, ?_, rfl⟩
    rw [← Named.isNonTerminating_resolve positive]
    exact terminates
  · rintro ⟨before, w, after, e, rfl, isBefore, isAfter, nonempty, _, reads, terminates, rfl⟩
    obtain ⟨behind, canonical⟩ := canonical_of_reads reads
    have all : before ++ w ++ after ++ [eof] = before ++ (w ++ (after ++ [eof])) := by simp
    have read := parseTerm_of_canonical isBefore isAfter nonempty isEof canonical
      ((Parser.new startId).after calls).nextId
    rw [Named.isNonTerminating_resolve positive, terminates] at read
    rw [load, all]
    exact read

/-- `x λy. z y`: the body takes the last two atoms. -/
theorem parseTerm_eq_ok_body : ∃ before w after e,
    [⟨.ident, "x", 1, 1, 1⟩, ⟨.lambda, "λ", 1, 3, 1⟩, ⟨.ident, "y", 1, 4, 1⟩, ⟨.dot, ".", 1, 5, 1⟩,
      ⟨.ident, "z", 1, 7, 1⟩, ⟨.ident, "y", 1, 9, 1⟩, ⟨.newline, "\n", 1, 10, 1⟩] =
        before ++ w ++ after ∧
      Newlines before ∧ Newlines after ∧ after ≠ [] ∧ IsTerm w ∧ Reads w e ∧ e.isLoop = false ∧
      Term.app (.var "x" 0 false) (.abs "y" 1 (.app (.var "z" 0 false) (.var "y" 1 false))) =
        e.resolve [] 1 :=
  ((parseTerm_eq_ok_iff 1 [] (rfl : Token.missing.kind = .eof) (by decide)).2 _).mp rfl

end Parser

end UntypedLambda
