import UntypedLambda.Proofs.Token.Word

/-! # How source text is cut

One lemma per kind of piece, with the source behind it.  Main statement:
`pieces_append_newline`, the lines of a text are cut apart from one another. -/
set_option autoImplicit false

namespace UntypedLambda

namespace Token

/-! ## One piece -/

theorem pieces_letter {c : Char} (letter : isLower c = true) (rest : List Char) (line col : Nat) :
    pieces line col (c :: rest) = .token (word (c :: rest.takeWhile isWordChar) line col) ::
      pieces line (col + 1 + (rest.takeWhile isWordChar).length) (rest.dropWhile isWordChar) := by
  rw [pieces, if_pos letter]

theorem pieces_newline (rest : List Char) (line col : Nat) :
    pieces line col ('\n' :: rest) =
      .token (covering .newline ['\n'] line col) :: pieces (line + 1) 1 rest := by
  rw [pieces]
  rfl

theorem pieces_comment (rest : List Char) (line col : Nat) :
    pieces line col ('#' :: rest) = pieces line
      (col + 1 + (rest.takeWhile (· != '\n')).length) (rest.dropWhile (· != '\n')) := by
  rw [pieces]
  rfl

theorem pieces_blank {c : Char} (blank : isBlank c = true) (rest : List Char) (line col : Nat) :
    pieces line col (c :: rest) = pieces line (col + 1) rest := by
  have other : isLower c = false ∧ c ≠ '\n' ∧ c ≠ '#' := by
    simp only [isBlank, Bool.or_eq_true, beq_iff_eq] at blank
    rcases blank with (rfl | rfl) | rfl <;> decide
  rw [pieces]
  simp [other, blank]

theorem pieces_mark {c : Char} {kind : Kind} (mark : mark? c = some kind) (rest : List Char)
    (line col : Nat) : pieces line col (c :: rest) =
      .token (covering kind [c] line col) :: pieces line (col + 1) rest := by
  have other : isLower c = false ∧ c ≠ '\n' ∧ c ≠ '#' ∧ isBlank c = false := by
    unfold mark? at mark
    split at mark <;> first | decide | cases mark
  rw [pieces]
  simp [other, mark]

theorem pieces_bad {c : Char} (notLetter : ¬ isLower c = true) (notNewline : ¬ c = '\n')
    (notComment : ¬ c = '#') (notBlank : ¬ isBlank c = true) (noMark : mark? c = none)
    (rest : List Char) (line col : Nat) :
    pieces line col (c :: rest) = .bad ⟨line, col, c⟩ :: pieces line (col + 1) rest := by
  rw [pieces, if_neg notLetter, if_neg notNewline, if_neg notComment, if_neg notBlank, noMark]

/-! ## A word and what is behind it -/

/-- No word goes on here. -/
def WordEnds (rest : List Char) : Prop := ∀ c ∈ rest.head?, isWordChar c = false

theorem wordEnds_cons {c : Char} (other : isWordChar c = false) (rest : List Char) :
    WordEnds (c :: rest) := by
  rintro d ⟨⟩
  exact other

theorem pieces_word {name : String} (isWord : IsWord name) {rest : List Char}
    (ends : WordEnds rest) (line col : Nat) :
    pieces line col (name.toList ++ rest) =
      .token (word name.toList line col) :: pieces line (col + name.toList.length) rest := by
  obtain ⟨first, later⟩ := isWord
  cases chars : name.toList with
  | nil => simp [chars] at first
  | cons c run =>
      rw [chars] at first later
      have letter : isLower c = true := first
      have inside : ∀ d ∈ run, isWordChar d = true := List.all_eq_true.mp later
      have stop : rest.takeWhile isWordChar = [] ∧ rest.dropWhile isWordChar = rest := by
        cases rest with
        | nil => exact ⟨rfl, rfl⟩
        | cons d rest => simp [ends d rfl]
      have column : col + 1 + run.length = col + (c :: run).length := by
        rw [List.length_cons]
        omega
      rw [List.cons_append, pieces_letter letter, List.takeWhile_append_of_pos inside,
        List.dropWhile_append_of_pos inside, stop.1, stop.2, List.append_nil, column]

/-! ## Several lines -/

theorem takeWhile_append_newline {p : Char → Bool} (stops : p '\n' = false) (l rest : List Char) :
    (l ++ '\n' :: rest).takeWhile p = l.takeWhile p ∧
      (l ++ '\n' :: rest).dropWhile p = l.dropWhile p ++ '\n' :: rest ∧
      (l.takeWhile p).length + (l.dropWhile p).length = l.length := by
  induction l with
  | nil => simp [stops]
  | cons c l ih =>
      obtain ⟨taken, dropped, length⟩ := ih
      cases goesOn : p c with
      | false => simp [goesOn]
      | true =>
          simp only [List.cons_append, List.takeWhile_cons, List.dropWhile_cons, goesOn, if_true,
            taken, dropped, List.length_cons, true_and]
          omega

/-- A newline ends every piece, so the line before it is cut as if it stood alone. -/
theorem pieces_append_newline {l : List Char} (one : '\n' ∉ l) (rest : List Char)
    (line col : Nat) : pieces line col (l ++ '\n' :: rest) = pieces line col l ++
      .token (covering .newline ['\n'] line (col + l.length)) :: pieces (line + 1) 1 rest := by
  have column : ∀ (col : Nat) (c : Char) (l : List Char),
      col + 1 + l.length = col + (c :: l).length := by
    intro col c l
    rw [List.length_cons]
    omega
  induction line, col, l using pieces.induct with
  | case1 line col =>
      rw [pieces]
      exact pieces_newline rest line col
  | case2 line col c l letter run ih =>
      obtain ⟨taken, dropped, length⟩ := takeWhile_append_newline (p := isWordChar) rfl l rest
      have after : '\n' ∉ l.dropWhile isWordChar := fun member =>
        one (List.mem_cons_of_mem _ ((List.dropWhile_suffix _).subset member))
      rw [List.cons_append, pieces_letter letter, pieces_letter letter, taken, dropped, ih after,
        Nat.add_assoc (col + 1), length, column col c l, List.cons_append]
  | case3 line col l _ ih => exact absurd List.mem_cons_self one
  | case4 line col l _ _ _ ih =>
      obtain ⟨taken, dropped, length⟩ :=
        takeWhile_append_newline (p := (· != '\n')) rfl l rest
      have after : '\n' ∉ l.dropWhile (· != '\n') := fun member =>
        one (List.mem_cons_of_mem _ ((List.dropWhile_suffix _).subset member))
      rw [List.cons_append, pieces_comment, pieces_comment, taken, dropped, ih after,
        Nat.add_assoc (col + 1), length, column col '#' l]
  | case5 line col c l notLetter notNewline notComment blank ih =>
      have after : '\n' ∉ l := fun member => one (List.mem_cons_of_mem _ member)
      rw [List.cons_append, pieces_blank blank, pieces_blank blank, ih after, column col c]
  | case6 line col c l _ _ _ _ kind mark ih =>
      have after : '\n' ∉ l := fun member => one (List.mem_cons_of_mem _ member)
      rw [List.cons_append, pieces_mark mark, pieces_mark mark, ih after, column col c,
        List.cons_append]
  | case7 line col c l notLetter notNewline notComment notBlank noMark ih =>
      have after : '\n' ∉ l := fun member => one (List.mem_cons_of_mem _ member)
      have bad := pieces_bad notLetter notNewline notComment notBlank noMark
      rw [List.cons_append, bad, bad, ih after, column col c, List.cons_append]

end Token

end UntypedLambda
