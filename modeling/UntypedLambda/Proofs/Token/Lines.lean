import Mathlib.Data.List.Forall2
import UntypedLambda.Proofs.Token.Pieces

/-! # The lines of a text

A line is cut into the same tokens wherever it stands, apart from the number of the line and
from the token at its end, which is a character of the source or was added behind it.

Main statement: `spells_scan`, the tokens of a text are those of its lines. -/
set_option autoImplicit false

namespace UntypedLambda

def isLineEnd (lexeme : String) : Bool := lexeme == "\n" || lexeme == "<newline>"

/-- The error without the number of its line, which only stays zero if it was zero, and with one
spelling for the end of a line. -/
def ParseError.withinLine (e : ParseError) : ParseError where
  cause := e.cause
  lexeme := bif isLineEnd e.lexeme then "\n" else e.lexeme
  location :=
    { e.location with
      line := e.location.line.sign
      length := bif isLineEnd e.lexeme then 1 else e.location.length }

namespace Token

structure Alike (a b : Token) : Prop where
  kind : a.kind = b.kind
  start : a.start = b.start
  line : a.line.sign = b.line.sign
  spelling : (a.lexeme = b.lexeme ∧ a.length = b.length) ∨
    (a.kind = .newline ∧ isLineEnd a.lexeme = true ∧ isLineEnd b.lexeme = true)

theorem Alike.atToken {a b : Token} (alike : Alike a b) (cause : ParseError.Cause) :
    (ParseError.atToken a cause).withinLine = (ParseError.atToken b cause).withinLine := by
  obtain ⟨kind, start, line, ⟨lexeme, length⟩ | ⟨_, left, right⟩⟩ := alike
  · simp only [ParseError.withinLine, ParseError.atToken, location, kind, start, line, lexeme,
      length]
  · simp only [ParseError.withinLine, ParseError.atToken, location, kind, start, line, left, right,
      cond_true]

theorem Alike.lexeme {a b : Token} (alike : Alike a b) (other : a.kind ≠ .newline) :
    a.lexeme = b.lexeme := by
  rcases alike.spelling with same | ⟨isNewline, _⟩
  · exact same.1
  · exact absurd isNewline other

/-! ## One line -/

def lineTokens (line : Nat) (text : List Char) : List Token :=
  (pieces line 1 text).filterMap Piece.token?

/-- The token behind a line that is the whole source. -/
def lineEnd (text : List Char) : Token := ⟨.newline, "<newline>", 1, (1 + text.length : Nat), 0⟩

def sourceEnd (text : List Char) : Token := ⟨.eof, "", 1, (1 + text.length : Nat), 0⟩

theorem alike_covering {line line' : Nat} (positive : 0 < line) (positive' : 0 < line')
    (kind : Kind) (chars : List Char) (col : Nat) :
    Alike (covering kind chars line col) (covering kind chars line' col) where
  kind := rfl
  start := rfl
  line := by
    have first : (line : Int).sign = 1 := Int.sign_eq_one_of_pos (by omega)
    have second : (line' : Int).sign = 1 := Int.sign_eq_one_of_pos (by omega)
    exact first.trans second.symm
  spelling := Or.inl ⟨rfl, rfl⟩

theorem alike_pieces (line col : Nat) (source : List Char) :
    ∀ line', 0 < line → 0 < line' →
      List.Forall₂ Alike ((pieces line col source).filterMap Piece.token?)
        ((pieces line' col source).filterMap Piece.token?) := by
  induction line, col, source using pieces.induct with
  | case1 line col =>
      intro line' _ _
      rw [pieces, pieces]
      exact .nil
  | case2 line col c rest letter run ih =>
      intro line' positive positive'
      rw [pieces_letter letter, pieces_letter letter]
      exact .cons (alike_covering positive positive' _ _ _) (ih line' positive positive')
  | case3 line col rest _ ih =>
      intro line' positive positive'
      rw [pieces_newline, pieces_newline]
      exact .cons (alike_covering positive positive' _ _ _)
        (ih (line' + 1) (Nat.succ_pos _) (Nat.succ_pos _))
  | case4 line col rest _ run _ ih =>
      intro line' positive positive'
      rw [pieces_comment, pieces_comment]
      exact ih line' positive positive'
  | case5 line col c rest _ _ _ blank ih =>
      intro line' positive positive'
      rw [pieces_blank blank, pieces_blank blank]
      exact ih line' positive positive'
  | case6 line col c rest _ _ _ _ kind mark ih =>
      intro line' positive positive'
      rw [pieces_mark mark, pieces_mark mark]
      exact .cons (alike_covering positive positive' _ _ _) (ih line' positive positive')
  | case7 line col c rest notLetter notNewline notComment notBlank noMark ih =>
      intro line' positive positive'
      have bad := pieces_bad notLetter notNewline notComment notBlank noMark
      rw [bad, bad]
      exact ih line' positive positive'

/-- The kinds that stand within a line. -/
def Inner (token : Token) : Prop := token.kind ≠ .newline ∧ token.kind ≠ .eof

theorem Alike.inner {a b : Token} (alike : Alike a b) (inner : Inner a) : Inner b := by
  rw [Inner, ← alike.kind]
  exact inner

theorem inner_alike {tokens tokens' : List Token} (alike : List.Forall₂ Alike tokens tokens')
    (inner : ∀ token ∈ tokens, Inner token) : ∀ token ∈ tokens', Inner token := by
  induction alike with
  | nil => exact fun token member => nomatch member
  | cons first _ ih =>
      intro token member
      rcases List.mem_cons.mp member with rfl | later
      · exact first.inner (inner _ List.mem_cons_self)
      · exact ih (fun t inside => inner t (List.mem_cons_of_mem _ inside)) token later

theorem inner_word (chars : List Char) (line col : Nat) : Inner (word chars line col) := by
  have kind : Kind.ofWord (String.ofList chars) ≠ .newline ∧
      Kind.ofWord (String.ofList chars) ≠ .eof := by
    unfold Kind.ofWord
    repeat' split
    all_goals decide
  exact kind

theorem inner_mark {c : Char} {kind : Kind} (mark : mark? c = some kind) (line col : Nat) :
    Inner (covering kind [c] line col) := by
  have inner : kind ≠ .newline ∧ kind ≠ .eof := by
    unfold mark? at mark
    split at mark <;> cases mark <;> decide
  exact inner

theorem inner_of_mem_pieces {line col : Nat} {text : List Char} (one : '\n' ∉ text) {token : Token}
    (member : Piece.token token ∈ pieces line col text) : Inner token := by
  fun_induction pieces line col text with
  | case1 => cases member
  | case2 line col c rest letter run ih =>
      have after : '\n' ∉ rest.dropWhile isWordChar := fun inside =>
        one (List.mem_cons_of_mem _ ((List.dropWhile_suffix _).subset inside))
      rcases List.mem_cons.mp member with same | later
      · cases same
        exact inner_word _ line col
      · exact ih after later
  | case3 line col rest _ ih => exact absurd List.mem_cons_self one
  | case4 line col rest _ run _ ih =>
      have after : '\n' ∉ rest.dropWhile (· != '\n') := fun inside =>
        one (List.mem_cons_of_mem _ ((List.dropWhile_suffix _).subset inside))
      exact ih after member
  | case5 line col c rest _ _ _ _ ih =>
      exact ih (fun inside => one (List.mem_cons_of_mem _ inside)) member
  | case6 line col c rest _ _ _ _ kind mark ih =>
      rcases List.mem_cons.mp member with same | later
      · cases same
        exact inner_mark mark line col
      · exact ih (fun inside => one (List.mem_cons_of_mem _ inside)) later
  | case7 line col c rest _ _ _ _ _ ih =>
      rcases List.mem_cons.mp member with same | later
      · cases same
      · exact ih (fun inside => one (List.mem_cons_of_mem _ inside)) later

theorem inner_of_mem_lineTokens {line : Nat} {text : List Char} (one : '\n' ∉ text) {token : Token}
    (member : token ∈ lineTokens line text) : Inner token := by
  obtain ⟨piece, inText, isToken⟩ := List.mem_filterMap.mp member
  cases piece with
  | token t =>
      cases isToken
      exact inner_of_mem_pieces one inText
  | bad e => cases isToken

theorem endOf_line {text : List Char} (one : '\n' ∉ text) (line col : Nat) :
    endOf line col text = (line, col + text.length) := by
  induction text generalizing col with
  | nil => rfl
  | cons c text ih =>
      have other : c ≠ '\n' := fun same => one (by simp [same])
      have later : '\n' ∉ text := fun member => one (List.mem_cons_of_mem _ member)
      rw [endOf, if_neg other, ih later, List.length_cons]
      congr 1
      omega

theorem endOf_append_newline {text : List Char} (one : '\n' ∉ text) (rest : List Char)
    (line col : Nat) : endOf line col (text ++ '\n' :: rest) = endOf (line + 1) 1 rest := by
  induction text generalizing col with
  | nil => rw [List.nil_append, endOf, if_pos rfl]
  | cons c text ih =>
      have other : c ≠ '\n' := fun same => one (by simp [same])
      have later : '\n' ∉ text := fun member => one (List.mem_cons_of_mem _ member)
      rw [List.cons_append, endOf, if_neg other, ih later]

theorem scan_line {source : String} (one : '\n' ∉ source.toList) :
    (scan source).tokens =
      lineTokens 1 source.toList ++ [lineEnd source.toList, sourceEnd source.toList] := by
  have last : (lineTokens 1 source.toList).getLast?.any (·.kind == .newline) = false := by
    cases last : (lineTokens 1 source.toList).getLast? with
    | none => rfl
    | some token =>
        have inner := inner_of_mem_lineTokens one (List.mem_of_getLast? last)
        simp [inner.1]
  rw [lineTokens] at last
  rw [scan, closing, last, endOf_line one]
  rfl

/-! ## Several lines -/

/-- The tokens are those of the lines.  A last line that holds no token needs no newline. -/
inductive Spells : List (List Char) → List Token → Prop where
  | nil {eof : Token} (isEof : eof.kind = .eof) : Spells [] [eof]
  | blank {text : List Char} {eof : Token} (one : '\n' ∉ text)
      (nothing : lineTokens 1 text = []) (isEof : eof.kind = .eof) : Spells [text] [eof]
  | cons {text : List Char} {texts : List (List Char)} {line tokens : List Token}
      {newline : Token} (one : '\n' ∉ text)
      (alike : List.Forall₂ Alike (lineTokens 1 text) line)
      (ends : Alike (lineEnd text) newline) (later : Spells texts tokens) :
      Spells (text :: texts) (line ++ newline :: tokens)

theorem lineTokens_append_newline {text : List Char} (one : '\n' ∉ text) (rest : List Char)
    (line : Nat) : lineTokens line (text ++ '\n' :: rest) = lineTokens line text ++
      covering .newline ['\n'] line (1 + text.length) :: lineTokens (line + 1) rest := by
  rw [lineTokens, pieces_append_newline one, List.filterMap_append]
  rfl

theorem getLast?_append_cons_or {α : Type} (front rest : List α) (a : α) (before : Option α) :
    (front ++ a :: rest).getLast?.or before = rest.getLast?.or (some a) := by
  rw [List.getLast?_append, List.getLast?_cons]
  cases rest.getLast? <;> rfl

theorem spells_last {text : List Char} (one : '\n' ∉ text) {line : Nat} (positive : 0 < line)
    {before : Option Token} (newlines : ∀ token ∈ before, token.kind = .newline) :
    Spells [text] (lineTokens line text ++
      closing ((lineTokens line text).getLast?.or before) (endOf line 1 text)) := by
  have alike : List.Forall₂ Alike (lineTokens 1 text) (lineTokens line text) :=
    alike_pieces 1 1 text line Nat.one_pos positive
  have sign : (line : Int).sign = 1 := Int.sign_eq_one_of_pos (by omega)
  have ends : Alike (lineEnd text) ⟨.newline, "<newline>", line, (1 + text.length : Nat), 0⟩ :=
    ⟨rfl, rfl, sign.symm, Or.inl ⟨rfl, rfl⟩⟩
  have isEof : (Token.mk .eof "" line (1 + text.length : Nat) 0).kind = .eof := rfl
  have whole := Spells.cons one alike ends (.nil isEof)
  rw [endOf_line one]
  cases last : (lineTokens line text).getLast? with
  | some token =>
      have inner := inner_of_mem_lineTokens one (List.mem_of_getLast? last)
      simpa [closing, inner.1] using whole
  | none =>
      have nothing := List.getLast?_eq_none_iff.mp last
      cases before with
      | none => simpa [closing] using whole
      | some token =>
          have kind := newlines token rfl
          rw [nothing] at alike ⊢
          have empty := Spells.blank one (List.forall₂_nil_right_iff.mp alike) isEof
          simpa [closing, kind] using empty

theorem spells_join {texts : List (List Char)} (nonempty : texts ≠ [])
    (separate : ∀ text ∈ texts, '\n' ∉ text) {line : Nat} (positive : 0 < line)
    {before : Option Token} (newlines : ∀ token ∈ before, token.kind = .newline) :
    Spells texts (lineTokens line (['\n'].intercalate texts) ++
      closing ((lineTokens line (['\n'].intercalate texts)).getLast?.or before)
        (endOf line 1 (['\n'].intercalate texts))) := by
  -- whether the last line gets a newline depends on the newline before it, hence `before`
  induction texts generalizing line before with
  | nil => exact absurd rfl nonempty
  | cons text texts ih =>
      have one := separate text List.mem_cons_self
      cases texts with
      | nil => simpa using spells_last one positive newlines
      | cons next texts =>
          have joined : ['\n'].intercalate (text :: next :: texts) =
              text ++ '\n' :: ['\n'].intercalate (next :: texts) := by simp
          have alike : List.Forall₂ Alike (lineTokens 1 text) (lineTokens line text) :=
            alike_pieces 1 1 text line Nat.one_pos positive
          have sign : (line : Int).sign = 1 := Int.sign_eq_one_of_pos (by omega)
          have ends : Alike (lineEnd text) (covering .newline ['\n'] line (1 + text.length)) :=
            ⟨rfl, rfl, sign.symm, Or.inr ⟨rfl, rfl, rfl⟩⟩
          have later : ∀ text ∈ next :: texts, '\n' ∉ text :=
            fun text member => separate text (List.mem_cons_of_mem _ member)
          have newline : ∀ token ∈ some (covering .newline ['\n'] line (1 + text.length)),
              token.kind = .newline := by
            rintro token ⟨⟩
            rfl
          have rest := ih (List.cons_ne_nil _ _) later (Nat.succ_pos line) newline
          rw [joined, lineTokens_append_newline one, getLast?_append_cons_or,
            endOf_append_newline one, List.append_assoc, List.cons_append]
          exact .cons one alike ends rest

theorem spells_scan {lines : List String} (nonempty : lines ≠ [])
    (separate : ∀ line ∈ lines, '\n' ∉ line.toList) :
    Spells (lines.map String.toList) (scan ("\n".intercalate lines)).tokens := by
  have some : lines.map String.toList ≠ [] := by simpa using nonempty
  have apart : ∀ text ∈ lines.map String.toList, '\n' ∉ text := by simpa using separate
  have none : ∀ token ∈ (Option.none : Option Token), token.kind = .newline :=
    fun token member => nomatch member
  have all := spells_join some apart Nat.one_pos none
  rw [Option.or_none] at all
  rw [scan, String.toList_intercalate]
  exact all

end Token

end UntypedLambda
