import UntypedLambda.Text.Bytes

/-! # Texts and their bytes

A text is known by its bytes, one text begins with another exactly if its bytes begin with those
of the other, and no text begins with a byte that stands further back in a character. -/
set_option autoImplicit false

namespace UntypedLambda.Text

theorem toByteArray_bytes (s : String) : (bytes s).toByteArray = s.toByteArray :=
  String.utf8Encode_toList

theorem ofBytes?_bytes (s : String) : ofBytes? (bytes s) = some s := by
  rw [ofBytes?, toByteArray_bytes, String.fromUTF8?, dif_pos s.isValidUTF8]
  rfl

@[simp] theorem bytes_append (s t : String) : bytes (s ++ t) = bytes s ++ bytes t := by
  simp [bytes]

@[simp] theorem bytes_singleton (c : Char) :
    bytes (String.singleton c) = String.utf8EncodeChar c := by
  simp [bytes]

theorem bytes_eq_nil {s : String} : bytes s = [] ↔ s = "" := by
  rw [← List.toByteArray_inj, toByteArray_bytes]
  exact String.toByteArray_eq_empty_iff

theorem bytes_isPrefix_iff {s t : String} : bytes s <+: bytes t ↔ s.toList <+: t.toList := by
  constructor
  · rintro ⟨rest, same⟩
    refine List.isPrefix_of_utf8Encode_append_eq_utf8Encode rest.toByteArray ?_
    rw [String.utf8Encode_toList, String.utf8Encode_toList, ← toByteArray_bytes,
      ← toByteArray_bytes, ← same, List.toByteArray_append]
  · rintro ⟨rest, same⟩
    refine ⟨rest.flatMap String.utf8EncodeChar, ?_⟩
    rw [bytes, bytes, ← List.flatMap_append, same]

theorem isPrefixOf_bytes (s t : String) :
    (bytes s).isPrefixOf (bytes t) = s.toList.isPrefixOf t.toList := by
  rw [Bool.eq_iff_iff, List.isPrefixOf_iff_prefix, List.isPrefixOf_iff_prefix, bytes_isPrefix_iff]

/-! ## First bytes -/

theorem head?_bytes {s : String} {b : UInt8} (first : (bytes s).head? = some b) :
    b.IsUTF8FirstByte := by
  rw [bytes] at first
  cases chars : s.toList with
  | nil => rw [chars] at first; cases first
  | cons c rest =>
      have present : 0 < (String.utf8EncodeChar c).length := by
        rw [String.length_utf8EncodeChar]
        exact c.utf8Size_pos
      rw [chars, List.flatMap_cons, List.head?_append, List.head?_eq_getElem?,
        List.getElem?_eq_getElem present, Option.some_or, Option.some_inj] at first
      exact first ▸ UInt8.isUTF8FirstByte_getElem_zero_utf8EncodeChar

/-- The bytes of a character behind its first one begin no text. -/
theorem isPrefixOf_tail {c : Char} (wide : c.utf8Size ≠ 1) (rest : List UInt8) (s : String) :
    ((String.utf8EncodeChar c).tail ++ rest).isPrefixOf (bytes s) = false := by
  have two : 1 < (String.utf8EncodeChar c).length := by
    rw [String.length_utf8EncodeChar]
    have := c.utf8Size_pos
    omega
  have inside : ¬ (String.utf8EncodeChar c)[1].IsUTF8FirstByte := by
    rw [UInt8.isUTF8FirstByte_getElem_utf8EncodeChar]
    exact Nat.one_ne_zero
  refine Bool.eq_false_iff.mpr fun begins => inside (head?_bytes (s := s) ?_)
  obtain ⟨behind, same⟩ := List.isPrefixOf_iff_prefix.mp begins
  rw [← same, List.append_assoc, List.head?_append, List.head?_tail,
    List.getElem?_eq_getElem two, Option.some_or]

/-! ## The last character that is wanted -/

section
variable {wanted : Char → Bool}

theorem lastIndex_eq_none {l : List Char} (solid : ∀ c ∈ l, wanted c = false) :
    lastIndex wanted l = none := by
  induction l with
  | nil => rfl
  | cons c l ih =>
      rw [lastIndex, ih fun d member => solid d (List.mem_cons_of_mem c member)]
      exact if_neg (by rw [solid c List.mem_cons_self]; exact Bool.false_ne_true)

theorem lastIndex_append (l : List Char) {c : Char} (found : wanted c = true) {word : List Char}
    (solid : ∀ d ∈ word, wanted d = false) :
    lastIndex wanted (l ++ c :: word) = some (l.flatMap String.utf8EncodeChar).length := by
  induction l with
  | nil => rw [List.nil_append, lastIndex, lastIndex_eq_none solid]; exact if_pos found
  | cons d l ih =>
      rw [List.cons_append, lastIndex, ih, List.flatMap_cons, List.length_append,
        String.length_utf8EncodeChar]

end

end UntypedLambda.Text
