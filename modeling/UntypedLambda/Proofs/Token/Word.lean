import UntypedLambda.Token.Scan

/-! # Words

The names that source text can hold: a small letter, and small letters and digits after it.
Main statement: `isIdentifier_of_mem_scan`, the lexeme of an identifier is a word and no
keyword. -/
set_option autoImplicit false

namespace UntypedLambda

def IsWord (name : String) : Prop :=
  name.toList.head?.any isLower = true ∧ name.toList.tail.all isWordChar = true

instance (name : String) : Decidable (IsWord name) :=
  inferInstanceAs (Decidable (_ ∧ _))

def IsIdentifier (name : String) : Prop :=
  IsWord name ∧ name ∉ ["lambda", "env", "unbind", "help"]

instance (name : String) : Decidable (IsIdentifier name) :=
  inferInstanceAs (Decidable (_ ∧ _))

namespace Token

theorem ofWord_eq_ident_iff {name : String} :
    Kind.ofWord name = .ident ↔ name ∉ ["lambda", "env", "unbind", "help"] := by
  simp only [List.mem_cons, List.not_mem_nil, or_false, not_or]
  constructor
  · intro ident
    refine ⟨?_, ?_, ?_, ?_⟩ <;> rintro rfl <;> revert ident <;> decide
  · rintro ⟨notLambda, notEnv, notUnbind, notHelp⟩
    rw [Kind.ofWord, if_neg notLambda, if_neg notEnv, if_neg notUnbind, if_neg notHelp]

theorem kind_ne_ident_of_mark? {c : Char} {kind : Kind} (mark : mark? c = some kind) :
    kind ≠ .ident := by
  rintro rfl
  unfold mark? at mark
  split at mark <;> cases mark

/-- Words are cut out of the source whole. -/
theorem isIdentifier_of_mem_pieces {line col : Nat} {source : List Char} {token : Token}
    (member : Piece.token token ∈ pieces line col source) (ident : token.kind = .ident) :
    IsIdentifier token.lexeme := by
  fun_induction pieces line col source with
  | case1 => cases member
  | case2 line col c rest letter run ih =>
      rcases List.mem_cons.mp member with same | later
      · cases same
        refine ⟨?_, ofWord_eq_ident_iff.mp ident⟩
        rw [IsWord, word, covering, String.toList_ofList]
        exact ⟨letter, List.all_takeWhile⟩
      · exact ih later
  | case3 line col rest _ ih =>
      rcases List.mem_cons.mp member with same | later
      · cases same
        cases ident
      · exact ih later
  | case4 line col rest _ run _ ih => exact ih member
  | case5 line col c rest _ _ _ _ ih => exact ih member
  | case6 line col c rest _ _ _ _ kind mark ih =>
      rcases List.mem_cons.mp member with same | later
      · cases same
        exact absurd ident (kind_ne_ident_of_mark? mark)
      · exact ih later
  | case7 line col c rest _ _ _ _ _ ih =>
      rcases List.mem_cons.mp member with same | later
      · cases same
      · exact ih later

theorem kind_ne_ident_of_mem_closing {last : Option Token} {place : Nat × Nat} {token : Token}
    (member : token ∈ closing last place) : token.kind ≠ .ident := by
  unfold closing at member
  split at member
  · rw [List.mem_singleton.mp member]
    exact Kind.noConfusion
  · rcases List.mem_cons.mp member with rfl | member
    · exact Kind.noConfusion
    · rw [List.mem_singleton.mp member]
      exact Kind.noConfusion

theorem isIdentifier_of_mem_scan {source : String} {token : Token}
    (member : token ∈ (scan source).tokens) (ident : token.kind = .ident) :
    IsIdentifier token.lexeme := by
  rcases List.mem_append.mp member with found | added
  · obtain ⟨piece, inSource, isToken⟩ := List.mem_filterMap.mp found
    cases piece with
    | token t =>
        cases isToken
        exact isIdentifier_of_mem_pieces inSource ident
    | bad e => cases isToken
  · exact absurd ident (kind_ne_ident_of_mem_closing added)

theorem isWord_of_mem_scan {source : String} {token : Token}
    (member : token ∈ (scan source).tokens) (ident : token.kind = .ident) :
    IsWord token.lexeme :=
  (isIdentifier_of_mem_scan member ident).1

end Token

end UntypedLambda
