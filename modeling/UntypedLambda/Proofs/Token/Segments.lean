import Mathlib.Data.List.TakeWhile
import UntypedLambda.Proofs.Token.Places

/-! # Every character is accounted for

The source falls into segments: tokens, characters that start no token, blanks and comments.
Nothing is left over between them, each piece carries the place where it starts, and a word goes
as far as it can on both sides.

Main statement: `exists_accounts`. -/
set_option autoImplicit false

namespace UntypedLambda

namespace Token

/-! ## Places along a text -/

theorem endOf_append (line col : Nat) (front rest : List Char) :
    endOf line col (front ++ rest) =
      endOf (endOf line col front).1 (endOf line col front).2 rest := by
  induction front generalizing line col with
  | nil => rfl
  | cons c front ih =>
      by_cases isNewline : c = '\n'
      · rw [List.cons_append, endOf, endOf, if_pos isNewline, if_pos isNewline, ih]
      · rw [List.cons_append, endOf, endOf, if_neg isNewline, if_neg isNewline, ih]

/-! ## Runs -/

/-- A small letter, and small letters and digits after it. -/
def IsRun (chars : List Char) : Prop :=
  chars.head?.any isLower = true ∧ chars.tail.all isWordChar = true

theorem isWordChar_of_isLower {c : Char} (letter : isLower c = true) : isWordChar c = true := by
  rw [isWordChar, letter, Bool.true_or]

namespace IsRun

variable {chars more : List Char}

theorem ne_nil (isRun : IsRun chars) : chars ≠ [] := by
  rintro rfl
  exact absurd isRun.1 Bool.false_ne_true

theorem isWordChar (isRun : IsRun chars) {c : Char} (member : c ∈ chars) :
    isWordChar c = true := by
  obtain ⟨first, later⟩ := isRun
  cases chars with
  | nil => cases member
  | cons d chars =>
      rcases List.mem_cons.mp member with rfl | member
      · exact isWordChar_of_isLower first
      · exact List.all_eq_true.mp later c member

theorem front (isRun : IsRun (chars ++ more)) (nonempty : chars ≠ []) : IsRun chars := by
  obtain ⟨c, chars, rfl⟩ := List.exists_cons_of_ne_nil nonempty
  refine ⟨isRun.1, List.all_eq_true.mpr fun d member => ?_⟩
  exact List.all_eq_true.mp isRun.2 d (List.mem_append_left _ member)

end IsRun

/-- If a word starts here, no word ends right before. -/
def Clear (before source : List Char) : Prop :=
  ∀ c ∈ source.head?, isWordChar c = true → ∀ left, left <:+ before → ¬ IsRun left

theorem clear_of_ends {before source : List Char}
    (ends : ∀ c ∈ source.head?, isWordChar c = false) : Clear before source := by
  intro c first inWord
  rw [ends c first] at inWord
  cases inWord

/-- A character that is no letter may be a digit behind a character of its kind, but then there
is no letter before them. -/
theorem Clear.snoc {before source : List Char} {c : Char} (clear : Clear before (c :: source))
    (notLetter : ¬ isLower c = true) : Clear (before ++ [c]) source := by
  intro _ _ _ left part isRun
  obtain ⟨front, rfl, inside⟩ := (List.suffix_concat_iff.mp part).resolve_left isRun.ne_nil
  have inWord : isWordChar c = true := isRun.isWordChar (by simp)
  cases front with
  | nil => exact notLetter isRun.1
  | cons d front => exact clear c rfl inWord _ inside (isRun.front (List.cons_ne_nil _ _))

theorem head?_dropWhile (p : Char → Bool) (source : List Char) :
    ∀ c ∈ (source.dropWhile p).head?, p c = false := by
  intro c first
  have stops := List.head?_dropWhile_not p source
  rw [Option.mem_def.mp first] at stops
  exact stops

/-! ## Segments -/

def keywords : List (String × Kind) :=
  [("lambda", .lambda), ("env", .env), ("unbind", .unbind), ("help", .help)]

inductive Segment where
  | piece (p : Piece)
  | blank (c : Char)
  /-- The characters behind the `#`. -/
  | comment (text : List Char)

namespace Segment

def chars : Segment → List Char
  | piece (.token t) => t.lexeme.toList
  | piece (.bad e) => [e.char]
  | blank c => [c]
  | comment text => '#' :: text

def piece? : Segment → Option Piece
  | piece p => some p
  | blank _ => none
  | comment _ => none

def token? (s : Segment) : Option Token := s.piece?.bind Piece.token?

def bad? (s : Segment) : Option LexError := s.piece?.bind Piece.bad?

/-- What a segment is, between the characters before it and those behind it. -/
inductive Stands (before after : List Char) : Segment → Prop where
  | mark {c : Char} {kind : Kind} (isMark : mark? c = some kind) :
      Stands before after
        (.piece (.token (covering kind [c] (endOf 1 1 before).1 (endOf 1 1 before).2)))
  | newline :
      Stands before after
        (.piece (.token (covering .newline ['\n'] (endOf 1 1 before).1 (endOf 1 1 before).2)))
  | word {run : List Char} {kind : Kind} (isRun : IsRun run)
      (maximal : ∀ left right, left <:+ before → right <+: after →
        IsRun (left ++ run ++ right) → left = [] ∧ right = [])
      (isKind : kind = (keywords.lookup (String.ofList run)).getD .ident) :
      Stands before after
        (.piece (.token (covering kind run (endOf 1 1 before).1 (endOf 1 1 before).2)))
  | blank {c : Char} (isBlank : isBlank c = true) : Stands before after (.blank c)
  | comment {text : List Char} (one : '\n' ∉ text) (ends : ∀ c ∈ after.head?, c = '\n') :
      Stands before after (.comment text)
  | bad {c : Char} (notLetter : ¬ isLower c = true) (notNewline : ¬ c = '\n')
      (notComment : ¬ c = '#') (notBlank : ¬ isBlank c = true) (noMark : mark? c = none) :
      Stands before after (.piece (.bad ⟨(endOf 1 1 before).1, (endOf 1 1 before).2, c⟩))

end Segment

/-- The segments make up the source, and they hold these pieces. -/
structure Cuts (before source : List Char) (found : List Piece) (segments : List Segment) :
    Prop where
  chars : segments.flatMap Segment.chars = source
  pieces : segments.filterMap Segment.piece? = found
  stands : ∀ front s rest, segments = front ++ s :: rest →
    s.Stands (before ++ front.flatMap Segment.chars) (rest.flatMap Segment.chars)

namespace Cuts

theorem nil (before : List Char) : Cuts before [] [] [] where
  chars := rfl
  pieces := rfl
  stands := fun front s rest split => by simp at split

theorem cons {before source : List Char} {found : List Piece} {segments : List Segment}
    {s : Segment} (first : s.Stands before source)
    (later : Cuts (before ++ s.chars) source found segments) :
    Cuts before (s.chars ++ source) (s.piece?.toList ++ found) (s :: segments) where
  chars := by rw [List.flatMap_cons, later.chars]
  pieces := by
    rw [List.filterMap_cons, later.pieces]
    cases s <;> rfl
  stands := by
    intro front s' rest split
    cases front with
    | nil =>
        cases split
        rw [later.chars]
        simpa using first
    | cons d front =>
        cases split
        have inside := later.stands front s' rest rfl
        rwa [List.append_assoc] at inside

theorem exists_cons {before source : List Char} {found : List Piece} {s : Segment}
    (part : List Char) (first : s.Stands before source) (chars : s.chars = part)
    (later : ∃ segments, Cuts (before ++ part) source found segments) :
    ∃ segments, Cuts before (part ++ source) (s.piece?.toList ++ found) segments := by
  subst chars
  obtain ⟨segments, later⟩ := later
  exact ⟨s :: segments, .cons first later⟩

end Cuts

theorem ofWord_eq_lookup (name : String) :
    Kind.ofWord name = (keywords.lookup name).getD .ident := by
  have entry : ∀ (key : String) (kind : Kind) (rest : List (String × Kind)),
      (((key, kind) :: rest).lookup name).getD .ident =
        if name = key then kind else (rest.lookup name).getD .ident := by
    intro key kind rest
    by_cases same : name = key
    · simp [same]
    · simp [List.lookup_cons, same, beq_eq_false_iff_ne.mpr same]
  rw [keywords, entry, entry, entry, entry]
  rfl

/-- No longer run goes through a word that has been cut out. -/
theorem maximal_run {before rest : List Char} {c : Char} (letter : isLower c = true)
    (clear : Clear before (c :: rest)) (left right : List Char) (front : left <:+ before)
    (back : right <+: rest.dropWhile isWordChar)
    (isRun : IsRun (left ++ (c :: rest.takeWhile isWordChar) ++ right)) :
    left = [] ∧ right = [] := by
  constructor
  · by_contra nonempty
    rw [List.append_assoc] at isRun
    exact clear c rfl (isWordChar_of_isLower letter) left front (isRun.front nonempty)
  · cases right with
    | nil => rfl
    | cons d right =>
        obtain ⟨more, whole⟩ := back
        have stops := head?_dropWhile isWordChar rest d (by rw [← whole]; rfl)
        rw [isRun.isWordChar (by simp)] at stops
        cases stops

theorem endOf_behind {before : List Char} {line col : Nat}
    (place : endOf 1 1 before = (line, col)) (part : List Char) (one : '\n' ∉ part) :
    endOf 1 1 (before ++ part) = (line, col + part.length) := by
  rw [endOf_append, place, endOf_line one]

theorem exists_cuts (line col : Nat) (source : List Char) :
    ∀ before, endOf 1 1 before = (line, col) → Clear before source →
      ∃ segments, Cuts before source (pieces line col source) segments := by
  fun_induction pieces line col source with
  | case1 line col => exact fun before _ _ => ⟨[], .nil before⟩
  | case2 line col c rest letter run ih =>
      intro before place clear
      have isRun : IsRun (c :: rest.takeWhile isWordChar) := ⟨letter, List.all_takeWhile⟩
      have one : '\n' ∉ c :: rest.takeWhile isWordChar := fun member =>
        absurd (isRun.isWordChar member) (by decide)
      have stands : (Segment.piece (.token (word (c :: rest.takeWhile isWordChar) line col))).Stands
          before (rest.dropWhile isWordChar) := by
        have found := Segment.Stands.word isRun (maximal_run letter clear) rfl
        rw [← ofWord_eq_lookup, place] at found
        exact found
      have behind := endOf_behind place _ one
      rw [List.length_cons, Nat.add_comm _ 1, ← Nat.add_assoc] at behind
      have all := Cuts.exists_cons _ stands String.toList_ofList
        (ih _ behind (clear_of_ends (head?_dropWhile isWordChar rest)))
      rwa [List.cons_append, List.takeWhile_append_dropWhile] at all
  | case3 line col rest _ ih =>
      intro before place clear
      have stands := @Segment.Stands.newline before rest
      have behind : endOf 1 1 (before ++ ['\n']) = (line + 1, 1) := by
        rw [endOf_append, place, endOf, if_pos rfl, endOf]
      rw [place] at stands
      exact Cuts.exists_cons _ stands String.toList_ofList (ih _ behind (clear.snoc (by decide)))
  | case4 line col rest run _ _ ih =>
      intro before place clear
      have one : '\n' ∉ rest.takeWhile (· != '\n') := fun member => by
        simpa using List.mem_takeWhile_imp member
      have ends : ∀ c ∈ (rest.dropWhile (· != '\n')).head?, c = '\n' := fun c first => by
        simpa using head?_dropWhile (· != '\n') rest c first
      have behind := endOf_behind place ('#' :: rest.takeWhile (· != '\n')) (by simp [one])
      rw [List.length_cons, Nat.add_comm _ 1, ← Nat.add_assoc] at behind
      have clear' : Clear (before ++ '#' :: rest.takeWhile (· != '\n'))
          (rest.dropWhile (· != '\n')) :=
        clear_of_ends fun c first => by rw [ends c first]; decide
      have all := Cuts.exists_cons ('#' :: rest.takeWhile (· != '\n'))
        (.comment one ends) rfl (ih _ behind clear')
      rwa [List.cons_append, List.takeWhile_append_dropWhile] at all
  | case5 line col c rest notLetter notNewline _ blank ih =>
      intro before place clear
      have behind := endOf_behind place [c] (by simpa using Ne.symm notNewline)
      exact Cuts.exists_cons [c] (.blank blank) rfl (ih _ behind (clear.snoc notLetter))
  | case6 line col c rest notLetter notNewline _ _ kind mark ih =>
      intro before place clear
      have stands := @Segment.Stands.mark before rest c kind mark
      have behind := endOf_behind place [c] (by simpa using Ne.symm notNewline)
      rw [place] at stands
      exact Cuts.exists_cons _ stands String.toList_ofList (ih _ behind (clear.snoc notLetter))
  | case7 line col c rest notLetter notNewline notComment notBlank noMark ih =>
      intro before place clear
      have stands := @Segment.Stands.bad before rest c notLetter notNewline notComment notBlank
        noMark
      have behind := endOf_behind place [c] (by simpa using Ne.symm notNewline)
      rw [place] at stands
      exact Cuts.exists_cons _ stands rfl (ih _ behind (clear.snoc notLetter))

/-! ## Order -/

namespace Piece

def line : Piece → Int
  | token t => t.line
  | bad e => e.line

def col : Piece → Int
  | token t => t.start
  | bad e => e.col

def width : Piece → Int
  | token t => t.length
  | bad _ => 1

/-- The first piece ends before the second one starts. -/
def Before (p q : Piece) : Prop :=
  p.line < q.line ∨ p.line = q.line ∧ p.col < q.col ∧ p.col + p.width ≤ q.col

/-- The piece starts at the place or behind it. -/
def From (line col : Nat) (p : Piece) : Prop := line < p.line ∨ line = p.line ∧ col ≤ p.col

theorem From.mono {line col col' : Nat} {p : Piece} (starts : p.From line col')
    (le : col ≤ col') : p.From line col := by
  unfold From at *
  omega

theorem From.next_line {line col : Nat} {p : Piece} (starts : p.From (line + 1) 1) :
    p.From line col := by
  unfold From at *
  omega

theorem From.before {line col : Nat} {chars : List Char} {kind : Kind} {p : Piece}
    (nonempty : chars ≠ []) (starts : p.From line (col + chars.length)) :
    (Piece.token (covering kind chars line col)).Before p := by
  have positive := List.length_pos_of_ne_nil nonempty
  have place : (Piece.token (covering kind chars line col)).line = line ∧
      (Piece.token (covering kind chars line col)).col = col ∧
      (Piece.token (covering kind chars line col)).width = chars.length := ⟨rfl, rfl, rfl⟩
  unfold From at starts
  unfold Before
  omega

end Piece

theorem from_of_mem_pieces {line col : Nat} {source : List Char} {p : Piece}
    (member : p ∈ pieces line col source) : p.From line col := by
  have here : ∀ {line col : Nat} {p : Piece}, p.line = line → p.col = col → p.From line col := by
    intro line col p sameLine sameCol
    exact Or.inr ⟨sameLine.symm, Int.le_of_eq sameCol.symm⟩
  fun_induction pieces line col source with
  | case1 => cases member
  | case2 line col c rest letter run ih =>
      rcases List.mem_cons.mp member with rfl | later
      · exact here rfl rfl
      · exact (ih later).mono (by omega)
  | case3 line col rest _ ih =>
      rcases List.mem_cons.mp member with rfl | later
      · exact here rfl rfl
      · exact (ih later).next_line
  | case4 line col rest _ run _ ih => exact (ih member).mono (by omega)
  | case5 line col c rest _ _ _ _ ih => exact (ih member).mono (by omega)
  | case6 line col c rest _ _ _ _ kind mark ih =>
      rcases List.mem_cons.mp member with rfl | later
      · exact here rfl rfl
      · exact (ih later).mono (by omega)
  | case7 line col c rest _ _ _ _ _ ih =>
      rcases List.mem_cons.mp member with rfl | later
      · exact here rfl rfl
      · exact (ih later).mono (by omega)

theorem pairwise_pieces (line col : Nat) (source : List Char) :
    (pieces line col source).Pairwise Piece.Before := by
  fun_induction pieces line col source with
  | case1 => exact .nil
  | case2 line col c rest letter run ih =>
      refine .cons (fun p later => ?_) ih
      have starts := from_of_mem_pieces later
      rw [Nat.add_assoc, Nat.add_comm 1] at starts
      exact starts.before (List.cons_ne_nil _ _)
  | case3 line col rest _ ih =>
      refine .cons (fun p later => ?_) ih
      exact (from_of_mem_pieces later).next_line.before (List.cons_ne_nil _ _)
  | case4 line col rest _ run _ ih => exact ih
  | case5 line col c rest _ _ _ _ ih => exact ih
  | case6 line col c rest _ _ _ _ kind mark ih =>
      exact .cons (fun p later => (from_of_mem_pieces later).before (List.cons_ne_nil _ _)) ih
  | case7 line col c rest _ _ _ _ _ ih =>
      refine .cons (fun p later => ?_) ih
      have starts := from_of_mem_pieces later
      have place : (Piece.bad ⟨line, col, c⟩).line = line ∧ (Piece.bad ⟨line, col, c⟩).col = col ∧
        (Piece.bad ⟨line, col, c⟩).width = 1 := ⟨rfl, rfl, rfl⟩
      unfold Piece.From at starts
      unfold Piece.Before
      omega

/-! ## Newlines -/

theorem count_newline_append_dropWhile {p : Char → Bool} (stops : p '\n' = false)
    (rest : List Char) : (rest.dropWhile p).count '\n' = rest.count '\n' := by
  have none : (rest.takeWhile p).count '\n' = 0 := by
    refine List.count_eq_zero_of_not_mem fun member => ?_
    rw [List.mem_takeWhile_imp member] at stops
    cases stops
  conv_rhs => rw [← List.takeWhile_append_dropWhile (p := p) (l := rest), List.count_append, none,
    Nat.zero_add]

/-- Every newline is a token, and there are no others of the kind. -/
theorem countP_newline_pieces (line col : Nat) (source : List Char) :
    ((pieces line col source).filterMap Piece.token?).countP (·.kind == .newline) =
      source.count '\n' := by
  fun_induction pieces line col source with
  | case1 => rfl
  | case2 line col c rest letter run ih =>
      have inner := (inner_word (c :: run) line col).1
      have other : c ≠ '\n' := by
        rintro rfl
        cases letter
      rw [List.filterMap_cons]
      dsimp only [Piece.token?]
      rw [List.countP_cons, ih, count_newline_append_dropWhile rfl, List.count_cons]
      simp [inner, other]
  | case3 line col rest _ ih =>
      rw [List.filterMap_cons]
      dsimp only [Piece.token?]
      rw [List.countP_cons, ih, List.count_cons]
      rfl
  | case4 line col rest _ run _ ih =>
      rw [ih, count_newline_append_dropWhile rfl, List.count_cons]
      rfl
  | case5 line col c rest _ notNewline _ _ ih =>
      rw [ih, List.count_cons]
      simp [notNewline]
  | case6 line col c rest _ notNewline _ _ kind mark ih =>
      have inner := (inner_mark mark line col).1
      rw [List.filterMap_cons]
      dsimp only [Piece.token?]
      rw [List.countP_cons, ih, List.count_cons]
      simp [inner, notNewline]
  | case7 line col c rest _ notNewline _ _ _ ih =>
      rw [List.filterMap_cons]
      dsimp only [Piece.token?]
      rw [ih, List.count_cons]
      simp [notNewline]

/-! ## Lines with their newlines -/

/-- The lines of a text, each with the newline that ends it. -/
def fullLines : List Char → List (List Char)
  | [] => [[]]
  | c :: rest =>
    if c = '\n' then [c] :: fullLines rest
    else (c :: (fullLines rest).headD []) :: (fullLines rest).tail

/-- The code points of the source at the place that the token carries. -/
def claimed (source : List Char) (t : Token) : List Char :=
  (((fullLines source).getD (t.line - 1).toNat []).drop (t.start - 1).toNat).take t.length.toNat

/-- The place behind a text is the line that it ends in, and how much of that line it holds. -/
theorem exists_line_at (before rest : List Char) (line col : Nat) :
    ∃ i front, (fullLines (before ++ rest)).getD i [] = front ++ (fullLines rest).headD [] ∧
      endOf line col before = (line + i, (if i = 0 then col else 1) + front.length) := by
  induction before generalizing line col with
  | nil =>
      refine ⟨0, [], ?_, rfl⟩
      rw [List.nil_append, List.nil_append]
      cases fullLines rest <;> rfl
  | cons c before ih =>
      rw [List.cons_append, fullLines, endOf]
      by_cases isNewline : c = '\n'
      · obtain ⟨i, front, found, place⟩ := ih (line + 1) 1
        rw [if_pos isNewline, if_pos isNewline, place]
        refine ⟨i + 1, front, found, ?_⟩
        rw [ite_self, if_neg (Nat.succ_ne_zero i), Nat.add_assoc, Nat.add_comm 1 i]
      · obtain ⟨i, front, found, place⟩ := ih line (col + 1)
        rw [if_neg isNewline, if_neg isNewline, place]
        cases i with
        | zero =>
            refine ⟨0, c :: front, ?_, by simp; omega⟩
            rw [List.getD_cons_zero, List.cons_append, ← found]
            cases fullLines (before ++ rest) <;> rfl
        | succ i =>
            refine ⟨i + 1, front, ?_, rfl⟩
            rw [List.getD_cons_succ, ← found]
            cases fullLines (before ++ rest) <;> rfl

theorem prefix_headD_fullLines {part : List Char} (one : '\n' ∉ part.dropLast)
    (rest : List Char) : part <+: (fullLines (part ++ rest)).headD [] := by
  induction part with
  | nil => exact List.nil_prefix
  | cons c part ih =>
      rw [List.cons_append, fullLines]
      cases part with
      | nil =>
          split
          · exact List.prefix_rfl
          · exact List.cons_prefix_cons.mpr ⟨rfl, List.nil_prefix⟩
      | cons d part =>
          rw [List.dropLast_cons_cons, List.mem_cons, not_or] at one
          rw [if_neg (Ne.symm one.1)]
          exact List.cons_prefix_cons.mpr ⟨rfl, ih one.2⟩

theorem claimed_covering (kind : Kind) (before : List Char) {part : List Char}
    (one : '\n' ∉ part.dropLast) (after : List Char) :
    claimed (before ++ (part ++ after))
      (covering kind part (endOf 1 1 before).1 (endOf 1 1 before).2) = part := by
  obtain ⟨i, front, found, place⟩ := exists_line_at before (part ++ after) 1 1
  rw [ite_self] at place
  have line : ((1 + i : Nat) - 1 : Int).toNat = i := by omega
  have start : ((1 + front.length : Nat) - 1 : Int).toNat = front.length := by omega
  rw [place]
  unfold claimed covering
  dsimp only
  rw [line, start, found, List.drop_left, Int.toNat_natCast]
  exact (List.prefix_iff_eq_take.mp (prefix_headD_fullLines one after)).symm

theorem Segment.Stands.covers {before after : List Char} {s : Segment} {t : Token}
    (stands : s.Stands before after) (isToken : s.token? = some t) :
    t = covering t.kind s.chars (endOf 1 1 before).1 (endOf 1 1 before).2 ∧
      t.lexeme.toList = s.chars ∧ '\n' ∉ s.chars.dropLast := by
  have whole : ∀ {kind : Kind} {part : List Char}, '\n' ∉ part.dropLast →
      (Segment.piece (.token
        (covering kind part (endOf 1 1 before).1 (endOf 1 1 before).2))).token? = some t →
      t = covering t.kind part (endOf 1 1 before).1 (endOf 1 1 before).2 ∧
        t.lexeme.toList = part ∧ '\n' ∉ part.dropLast := by
    intro kind part one isToken
    cases isToken
    exact ⟨rfl, String.toList_ofList, one⟩
  have chars : ∀ (kind : Kind) (part : List Char) (line col : Nat),
      (Segment.piece (.token (covering kind part line col))).chars = part :=
    fun _ _ _ _ => String.toList_ofList
  cases stands with
  | mark isMark =>
      rw [chars]
      exact whole (by simp) isToken
  | newline =>
      rw [chars]
      exact whole (by simp) isToken
  | word isRun _ _ =>
      rw [chars]
      have one : '\n' ∉ _ := fun member => absurd (isRun.isWordChar member) (by decide)
      exact whole (fun member => one (List.dropLast_subset _ member)) isToken
  | blank _ => cases isToken
  | comment _ _ => cases isToken
  | bad _ _ _ _ _ => cases isToken

/-! ## The whole source -/

def endMark (place : Nat × Nat) : Token := ⟨.eof, "", place.1, place.2, 0⟩

/-- The newline behind a source that does not end in one. -/
def addedNewline (place : Nat × Nat) : Token := ⟨.newline, "<newline>", place.1, place.2, 0⟩

/-- What the characters of a source have become, and which tokens were added behind them. -/
structure Accounts (source : String) (found : Scan) (segments : List Segment)
    (added : List Token) : Prop where
  chars : segments.flatMap Segment.chars = source.toList
  stands : ∀ front s rest, segments = front ++ s :: rest →
    s.Stands (front.flatMap Segment.chars) (rest.flatMap Segment.chars)
  tokens : found.tokens = segments.filterMap Segment.token? ++ added ++
    [endMark (endOf 1 1 source.toList)]
  errors : found.errors = segments.filterMap Segment.bad?
  added : added = [] ∨ added = [addedNewline (endOf 1 1 source.toList)]
  ends : ∃ front newline eof, found.tokens = front ++ [newline, eof] ∧
    newline.kind = .newline ∧ eof.kind = .eof ∧ ∀ t ∈ front, t.kind ≠ .eof
  places : ∀ t ∈ segments.filterMap Segment.token?, claimed source.toList t = t.lexeme.toList
  tokensOrdered : (segments.filterMap Segment.token?).Pairwise fun t u =>
    t.line < u.line ∨ t.line = u.line ∧ t.start < u.start ∧ t.start + t.length ≤ u.start
  errorsOrdered : (segments.filterMap Segment.bad?).Pairwise fun e f =>
    e.line < f.line ∨ e.line = f.line ∧ e.col < f.col
  newlines : (segments.filterMap Segment.token?).countP (·.kind == .newline) =
    source.toList.count '\n'

theorem Segment.Stands.kind_ne_eof {before after : List Char} {s : Segment} {t : Token}
    (stands : s.Stands before after) (isToken : s.token? = some t) : t.kind ≠ .eof := by
  cases stands with
  | mark isMark =>
      cases isToken
      exact (inner_mark isMark 0 0).2
  | newline =>
      cases isToken
      exact Kind.noConfusion
  | word isRun _ isKind =>
      cases isToken
      rw [← ofWord_eq_lookup] at isKind
      subst isKind
      exact (inner_word _ 0 0).2
  | blank _ => cases isToken
  | comment _ _ => cases isToken
  | bad _ _ _ _ _ => cases isToken

/-- A newline is added exactly where the last token is none. -/
theorem exists_added (tokens : List Token) (place : Nat × Nat) :
    ∃ added, closing tokens.getLast? place = added ++ [endMark place] ∧
      (added = [] ∨ added = [addedNewline place]) ∧
      ∃ front newline, tokens ++ added = front ++ [newline] ∧ newline.kind = .newline ∧
        front <+: tokens := by
  unfold closing
  cases ended : tokens.getLast?.any (·.kind == .newline) with
  | false =>
      exact ⟨[addedNewline place], rfl, Or.inr rfl, tokens, addedNewline place, rfl, rfl,
        List.prefix_rfl⟩
  | true =>
      obtain ⟨newline, last, isNewline⟩ := (Option.any_eq_true _ _).mp ended
      obtain ⟨front, rfl⟩ := List.getLast?_eq_some_iff.mp last
      exact ⟨[], rfl, Or.inl rfl, front, newline, List.append_nil _, beq_iff_eq.mp isNewline,
        List.prefix_append front [newline]⟩

/-- Every character of a source is part of one token, one error, a blank or a comment, and tokens
carry the places of their characters. -/
theorem exists_accounts (source : String) :
    ∃ segments added, Accounts source (scan source) segments added := by
  have clear : Clear [] source.toList := by
    intro c _ _ left part isRun
    exact isRun.ne_nil (List.suffix_nil.mp part)
  obtain ⟨segments, cuts⟩ := exists_cuts 1 1 source.toList [] rfl clear
  have tokens : (pieces 1 1 source.toList).filterMap Piece.token? =
      segments.filterMap Segment.token? := by
    rw [← cuts.pieces, List.filterMap_filterMap]
    rfl
  have errors : (pieces 1 1 source.toList).filterMap Piece.bad? =
      segments.filterMap Segment.bad? := by
    rw [← cuts.pieces, List.filterMap_filterMap]
    rfl
  have stands : ∀ t ∈ segments.filterMap Segment.token?, ∃ front s rest,
      segments = front ++ s :: rest ∧ s.token? = some t ∧
        s.Stands (front.flatMap Segment.chars) (rest.flatMap Segment.chars) := by
    intro t member
    obtain ⟨s, inside, isToken⟩ := List.mem_filterMap.mp member
    obtain ⟨front, rest, split⟩ := List.append_of_mem inside
    exact ⟨front, s, rest, split, isToken, cuts.stands front s rest split⟩
  obtain ⟨added, closed, oneOrNone, front, newline, whole, isNewline, part⟩ :=
    exists_added (segments.filterMap Segment.token?) (endOf 1 1 source.toList)
  have found : (scan source).tokens = segments.filterMap Segment.token? ++ (added ++
      [endMark (endOf 1 1 source.toList)]) := by
    rw [← closed, ← tokens]
    rfl
  have ordered := pairwise_pieces 1 1 source.toList
  refine ⟨segments, added, cuts.chars, cuts.stands, by rw [found, List.append_assoc], errors,
    oneOrNone, ?ends, ?places, ?tokensOrdered, ?errorsOrdered, ?newlines⟩
  case ends =>
    refine ⟨front, newline, endMark (endOf 1 1 source.toList), ?_, isNewline, rfl,
      fun t inside => ?_⟩
    · rw [found, ← List.append_assoc, whole, List.append_assoc]
      rfl
    · obtain ⟨_, s, _, _, isToken, stands⟩ := stands t (part.subset inside)
      exact stands.kind_ne_eof isToken
  case places =>
    intro t member
    obtain ⟨front, s, rest, split, isToken, stands⟩ := stands t member
    obtain ⟨covers, lexeme, one⟩ := stands.covers isToken
    rw [← cuts.chars, split, List.flatMap_append, List.flatMap_cons, lexeme, covers]
    exact claimed_covering t.kind _ one _
  case tokensOrdered =>
    rw [← tokens]
    refine ordered.filterMap Piece.token? fun p q before t isFirst u isSecond => ?_
    cases p <;> cases q <;> cases isFirst <;> cases isSecond
    exact before
  case errorsOrdered =>
    rw [← errors]
    refine ordered.filterMap Piece.bad? fun p q before e isFirst f isSecond => ?_
    cases p <;> cases q <;> cases isFirst <;> cases isSecond
    exact before.imp_right fun same => ⟨same.1, same.2.1⟩
  case newlines =>
    rw [← tokens]
    exact countP_newline_pieces 1 1 source.toList

/-- Errors are found in the order in which they stand. -/
theorem pairwise_errors (source : String) : (scan source).errors.Pairwise fun e f =>
    e.line < f.line ∨ e.line = f.line ∧ e.col < f.col := by
  obtain ⟨segments, added, accounts⟩ := exists_accounts source
  rw [accounts.errors]
  exact accounts.errorsOrdered

end Token

end UntypedLambda
