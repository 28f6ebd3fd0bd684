import UntypedLambda.Proofs.Token.Lines
import UntypedLambda.Text.Blank

/-! # Where tokens stand

The place of a token is counted along the whole text, and the text is cut into lines apart from
that.  Both agree: in the line with its number a token covers its own lexeme from its own column
on, and a token that ends a line or the text has its column right behind the line.

Main statements: `standing_of_mem_scan`, `exists_line_of_mem_errors`. -/
set_option autoImplicit false

namespace UntypedLambda

/-! ## Cutting at a separator -/

namespace Text

theorem splitAt_ne_nil (separator : Char) (s : List Char) : splitAt separator s ≠ [] := by
  cases s with
  | nil => exact List.cons_ne_nil _ _
  | cons c rest =>
      unfold splitAt
      split
      · exact List.cons_ne_nil _ _
      · split <;> exact List.cons_ne_nil _ _

theorem splitAt_cons_of_ne {separator c : Char} (other : c ≠ separator) (rest : List Char) :
    ∃ part parts, splitAt separator rest = part :: parts ∧
      splitAt separator (c :: rest) = (c :: part) :: parts := by
  obtain ⟨part, parts, split⟩ := List.exists_cons_of_ne_nil (splitAt_ne_nil separator rest)
  refine ⟨part, parts, split, ?_⟩
  rw [splitAt, if_neg other, split]

theorem intercalate_splitAt (separator : Char) (s : List Char) :
    [separator].intercalate (splitAt separator s) = s := by
  induction s with
  | nil => rfl
  | cons c rest ih =>
      by_cases same : c = separator
      · obtain ⟨part, parts, split⟩ := List.exists_cons_of_ne_nil (splitAt_ne_nil separator rest)
        rw [split] at ih
        rw [splitAt, if_pos same, split, List.intercalate_cons_cons, ih, same]
        rfl
      · obtain ⟨part, parts, split, cut⟩ := splitAt_cons_of_ne same rest
        rw [split] at ih
        rw [cut]
        cases parts with
        | nil => simpa using ih
        | cons next parts => simpa using ih

theorem not_mem_of_mem_splitAt {separator : Char} {s part : List Char}
    (member : part ∈ splitAt separator s) : separator ∉ part := by
  induction s generalizing part with
  | nil =>
      rw [splitAt, List.mem_singleton] at member
      simp [member]
  | cons c rest ih =>
      by_cases same : c = separator
      · rw [splitAt, if_pos same, List.mem_cons] at member
        rcases member with rfl | later
        · exact List.not_mem_nil
        · exact ih later
      · obtain ⟨first, parts, split, cut⟩ := splitAt_cons_of_ne same rest
        rw [cut, List.mem_cons] at member
        rcases member with rfl | later
        · have inside : first ∈ splitAt separator rest := by simp [split]
          simpa [Ne.symm same] using ih inside
        · exact ih (by simp [split, later])

theorem lines_eq (s : String) :
    "\n".intercalate (lines s) = s ∧ ∀ line ∈ lines s, '\n' ∉ line.toList := by
  constructor
  · apply String.toList_injective
    rw [String.toList_intercalate, lines, List.map_map]
    have same : String.toList ∘ String.ofList = id := funext fun _ => String.toList_ofList
    rw [same, List.map_id]
    exact intercalate_splitAt '\n' s.toList
  · intro line member
    obtain ⟨part, inside, rfl⟩ := List.mem_map.mp member
    rw [String.toList_ofList]
    exact not_mem_of_mem_splitAt inside

end Text

namespace Token

/-! ## One line -/

/-- The piece covers a part of the text from a column on, and is no end of a line. -/
def Piece.Covers (part : List Char) (line col : Nat) : Piece → Prop
  | .token t => Inner t ∧ part ≠ [] ∧ t = covering t.kind part line col
  | .bad e => part = [e.char] ∧ e = ⟨line, col, e.char⟩

theorem Piece.Covers.word {chars : List Char} (some : chars ≠ []) (line col : Nat) :
    (Piece.token (word chars line col)).Covers chars line col :=
  ⟨inner_word chars line col, some, rfl⟩

/-- The piece covers a part of a text whose first character stands at `col`. -/
def Piece.Within (text : List Char) (line col : Nat) (p : Piece) : Prop :=
  ∃ before part after, text = before ++ (part ++ after) ∧
    p.Covers part line (col + before.length)

theorem Piece.Covers.within {p : Piece} {part : List Char} {line col : Nat}
    (covers : p.Covers part line col) (after : List Char) : p.Within (part ++ after) line col :=
  ⟨[], part, after, rfl, covers⟩

theorem Piece.Within.further {p : Piece} {rest : List Char} {line col : Nat} {front : List Char}
    (within : p.Within rest line (col + front.length)) : p.Within (front ++ rest) line col := by
  obtain ⟨before, part, after, rfl, covers⟩ := within
  refine ⟨front ++ before, part, after, by rw [List.append_assoc], ?_⟩
  rwa [List.length_append, ← Nat.add_assoc]

theorem within_of_mem_pieces {line col : Nat} {text : List Char} (one : '\n' ∉ text) {p : Piece}
    (member : p ∈ pieces line col text) : p.Within text line col := by
  fun_induction pieces line col text with
  | case1 => cases member
  | case2 line col c rest letter run ih =>
      have behind : '\n' ∉ rest.dropWhile isWordChar := fun inside =>
        one (List.mem_cons_of_mem _ ((List.dropWhile_suffix _).subset inside))
      have cut : c :: rest = (c :: run) ++ rest.dropWhile isWordChar := by
        rw [List.cons_append, List.takeWhile_append_dropWhile]
      rw [cut]
      rcases List.mem_cons.mp member with rfl | later
      · exact (Piece.Covers.word (List.cons_ne_nil _ _) line col).within _
      · have found := ih behind later
        rw [Nat.add_assoc, Nat.add_comm 1] at found
        exact found.further
  | case3 line col rest _ ih => exact absurd List.mem_cons_self one
  | case4 line col rest run _ _ ih =>
      have behind : '\n' ∉ rest.dropWhile (· != '\n') := fun inside =>
        one (List.mem_cons_of_mem _ ((List.dropWhile_suffix _).subset inside))
      have cut : '#' :: rest = ('#' :: run) ++ rest.dropWhile (· != '\n') := by
        rw [List.cons_append, List.takeWhile_append_dropWhile]
      have found := ih behind member
      rw [Nat.add_assoc, Nat.add_comm 1] at found
      rw [cut]
      exact found.further
  | case5 line col c rest _ _ _ _ ih =>
      have found := ih (fun inside => one (List.mem_cons_of_mem _ inside)) member
      exact @Piece.Within.further _ _ _ _ [c] found
  | case6 line col c rest _ _ _ _ kind mark ih =>
      rcases List.mem_cons.mp member with rfl | later
      · have covers : (Piece.token (covering kind [c] line col)).Covers [c] line col :=
          ⟨inner_mark mark line col, List.cons_ne_nil _ _, rfl⟩
        exact covers.within rest
      · have found := ih (fun inside => one (List.mem_cons_of_mem _ inside)) later
        exact @Piece.Within.further _ _ _ _ [c] found
  | case7 line col c rest _ _ _ _ _ ih =>
      rcases List.mem_cons.mp member with rfl | later
      · have covers : (Piece.bad ⟨line, col, c⟩).Covers [c] line col := ⟨rfl, rfl⟩
        exact covers.within rest
      · have found := ih (fun inside => one (List.mem_cons_of_mem _ inside)) later
        exact @Piece.Within.further _ _ _ _ [c] found

/-! ## Several lines -/

/-- The piece is a newline behind the text, which is a line. -/
def Piece.Ends (text : List Char) (line : Nat) (p : Piece) : Prop :=
  p = .token (covering .newline ['\n'] line (1 + text.length))

theorem exists_line_of_mem_pieces {texts : List (List Char)} (nonempty : texts ≠ [])
    (separate : ∀ text ∈ texts, '\n' ∉ text) {line : Nat} {p : Piece}
    (member : p ∈ pieces line 1 (['\n'].intercalate texts)) :
    ∃ i text, texts[i]? = some text ∧ (p.Within text (line + i) 1 ∨ p.Ends text (line + i)) := by
  induction texts generalizing line with
  | nil => exact absurd rfl nonempty
  | cons text texts ih =>
      have one := separate text List.mem_cons_self
      cases texts with
      | nil =>
          rw [List.intercalate_singleton] at member
          exact ⟨0, text, rfl, Or.inl (within_of_mem_pieces one member)⟩
      | cons next texts =>
          have joined : ['\n'].intercalate (text :: next :: texts) =
              text ++ '\n' :: ['\n'].intercalate (next :: texts) := by simp
          rw [joined, pieces_append_newline one, List.mem_append, List.mem_cons] at member
          rcases member with inside | rfl | later
          · exact ⟨0, text, rfl, Or.inl (within_of_mem_pieces one inside)⟩
          · exact ⟨0, text, rfl, Or.inr rfl⟩
          · have others : ∀ text ∈ next :: texts, '\n' ∉ text :=
              fun text member => separate text (List.mem_cons_of_mem _ member)
            obtain ⟨i, found, at', place⟩ := ih (List.cons_ne_nil _ _) others later
            refine ⟨i + 1, found, at', ?_⟩
            rwa [← Nat.add_assoc, Nat.add_right_comm]

theorem exists_line_of_endOf {texts : List (List Char)} (nonempty : texts ≠ [])
    (separate : ∀ text ∈ texts, '\n' ∉ text) (line : Nat) :
    ∃ i text, texts[i]? = some text ∧
      endOf line 1 (['\n'].intercalate texts) = (line + i, 1 + text.length) := by
  induction texts generalizing line with
  | nil => exact absurd rfl nonempty
  | cons text texts ih =>
      have one := separate text List.mem_cons_self
      cases texts with
      | nil => exact ⟨0, text, rfl, by rw [List.intercalate_singleton, endOf_line one]; rfl⟩
      | cons next texts =>
          have joined : ['\n'].intercalate (text :: next :: texts) =
              text ++ '\n' :: ['\n'].intercalate (next :: texts) := by simp
          have others : ∀ text ∈ next :: texts, '\n' ∉ text :=
            fun text member => separate text (List.mem_cons_of_mem _ member)
          obtain ⟨i, found, at', place⟩ := ih (List.cons_ne_nil _ _) others (line + 1)
          refine ⟨i + 1, found, at', ?_⟩
          rw [joined, endOf_append_newline one, place, Nat.add_assoc, Nat.add_comm 1]

/-! ## A whole text -/

/-- The token stands in a line: it covers its lexeme there, or ends the line from behind it. -/
inductive Standing (text : List Char) (line : Nat) (t : Token) : Prop where
  | within (before part after : List Char) (cut : text = before ++ (part ++ after))
      (inner : Inner t) (nonempty : part ≠ [])
      (same : t = covering t.kind part line (1 + before.length))
  | behind (ends : ¬ Inner t) (isLine : t.line = line) (isBehind : t.start = 1 + text.length)

theorem standing_of_mem_scan {source : String} {t : Token} (member : t ∈ (scan source).tokens) :
    ∃ i text, (Text.splitAt '\n' source.toList)[i]? = some text ∧ Standing text (1 + i) t := by
  have nonempty := Text.splitAt_ne_nil '\n' source.toList
  have separate : ∀ text ∈ Text.splitAt '\n' source.toList, '\n' ∉ text :=
    fun text member => Text.not_mem_of_mem_splitAt member
  have whole := Text.intercalate_splitAt '\n' source.toList
  rcases List.mem_append.mp member with found | closed
  · obtain ⟨p, inside, isToken⟩ := List.mem_filterMap.mp found
    rw [← whole] at inside
    obtain ⟨i, text, line, place⟩ := exists_line_of_mem_pieces nonempty separate inside
    refine ⟨i, text, line, ?_⟩
    cases p with
    | bad e => cases isToken
    | token t' =>
        cases isToken
        rcases place with ⟨before, part, after, cut, inner, some, same⟩ | same
        · exact .within before part after cut inner some same
        · cases same
          exact .behind (fun inner => inner.1 rfl) rfl rfl
  · obtain ⟨i, text, line, place⟩ := exists_line_of_endOf nonempty separate 1
    rw [whole] at place
    refine ⟨i, text, line, ?_⟩
    rw [place] at closed
    have ends : t.kind = .newline ∨ t.kind = .eof := by
      unfold closing at closed
      split at closed <;> simp only [List.mem_cons, List.not_mem_nil, or_false] at closed
      · exact Or.inr (closed ▸ rfl)
      · rcases closed with rfl | rfl
        · exact Or.inl rfl
        · exact Or.inr rfl
    have stands : t.line = (1 + i : Nat) ∧ t.start = (1 + text.length : Nat) := by
      unfold closing at closed
      split at closed <;> simp only [List.mem_cons, List.not_mem_nil, or_false] at closed
      · exact closed ▸ ⟨rfl, rfl⟩
      · rcases closed with rfl | rfl <;> exact ⟨rfl, rfl⟩
    refine .behind ?_ stands.1 stands.2
    rintro ⟨notNewline, notEof⟩
    exact ends.elim notNewline notEof

theorem exists_line_of_mem_errors {source : String} {e : LexError}
    (member : e ∈ (scan source).errors) :
    ∃ i text before after, (Text.splitAt '\n' source.toList)[i]? = some text ∧
      text = before ++ e.char :: after ∧
      e = ⟨(1 + i : Nat), (1 + before.length : Nat), e.char⟩ := by
  have nonempty := Text.splitAt_ne_nil '\n' source.toList
  have separate : ∀ text ∈ Text.splitAt '\n' source.toList, '\n' ∉ text :=
    fun text member => Text.not_mem_of_mem_splitAt member
  obtain ⟨p, inside, isBad⟩ := List.mem_filterMap.mp member
  rw [← Text.intercalate_splitAt '\n' source.toList] at inside
  obtain ⟨i, text, line, place⟩ := exists_line_of_mem_pieces nonempty separate inside
  cases p with
  | token t => cases isBad
  | bad e' =>
      cases isBad
      rcases place with ⟨before, part, after, cut, isPart, same⟩ | same
      · rw [isPart] at cut
        exact ⟨i, text, before, after, line, cut, same⟩
      · cases same

end Token

end UntypedLambda
