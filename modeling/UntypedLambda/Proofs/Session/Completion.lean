import UntypedLambda.Proofs.Session.Aliases
import UntypedLambda.Proofs.Text.Bytes
import UntypedLambda.Session.Completion

/-! # What a line is completed to

The last word of a line is what stands behind its last separator.  It is completed to the
commands and the bound names that start with it, and what stands before it is kept.  A line is
cut one byte behind the place where the separator begins, which is in the middle of a `λ`; what
is looked up then begins with the second byte of `λ`, and no name does.

Main statements: `complete_last_word`, and `complete_behind_lambda` where a `λ` makes a
difference. -/
set_option autoImplicit false

namespace UntypedLambda.Session

open Text

/-! ## Where a line is cut -/

theorem completions_of_split (names : List (List UInt8)) {line : String} {before word : List UInt8}
    (split : bytes line = before ++ word) (start : wordStart line = before.length)
    (nonempty : word ≠ []) :
    completions names line = (names.filter word.isPrefixOf).map (before ++ ·) := by
  have present : word.isEmpty = false := by simpa using nonempty
  rw [completions, split, start, List.take_left, List.drop_left]
  simp only [present, Bool.false_eq_true, if_false]

section
variable (names : List (List UInt8)) {word : String} (nonempty : word ≠ "")
  (solid : ∀ c ∈ word.toList, isSeparator c = false)
include nonempty solid

theorem completions_word :
    completions names word = names.filter (bytes word).isPrefixOf := by
  have start : wordStart word = 0 := by rw [wordStart, lastIndex_eq_none solid]
  rw [completions_of_split names (List.nil_append _).symm start (mt bytes_eq_nil.mp nonempty)]
  exact List.map_id _

/-- The first byte of the separator is kept, and its other bytes are taken for a part of the
word. -/
theorem completions_behind (front : String) {c : Char} (separates : isSeparator c = true) :
    completions names (front ++ String.singleton c ++ word) =
      (names.filter ((String.utf8EncodeChar c).tail ++ bytes word).isPrefixOf).map
        (bytes front ++ (String.utf8EncodeChar c).take 1 ++ ·) := by
  have encoded : (String.utf8EncodeChar c).take 1 ++ (String.utf8EncodeChar c).tail =
      String.utf8EncodeChar c := by rw [← List.drop_one, List.take_append_drop]
  have one : ((String.utf8EncodeChar c).take 1).length = 1 := by
    rw [List.length_take, String.length_utf8EncodeChar]
    exact Nat.min_eq_left c.utf8Size_pos
  have chars : (front ++ String.singleton c ++ word).toList = front.toList ++ c :: word.toList := by
    simp
  have start : wordStart (front ++ String.singleton c ++ word) =
      (bytes front ++ (String.utf8EncodeChar c).take 1).length := by
    rw [wordStart, chars, lastIndex_append front.toList separates solid, List.length_append, one,
      bytes]
  refine completions_of_split names ?_ start ?_
  · calc bytes (front ++ String.singleton c ++ word)
        = bytes front ++ ((String.utf8EncodeChar c).take 1 ++ (String.utf8EncodeChar c).tail) ++
            bytes word := by rw [encoded, bytes_append, bytes_append, bytes_singleton]
      _ = bytes front ++ (String.utf8EncodeChar c).take 1 ++
            ((String.utf8EncodeChar c).tail ++ bytes word) := by simp only [List.append_assoc]
  · exact List.append_ne_nil_of_right_ne_nil _ (mt bytes_eq_nil.mp nonempty)

end

/-! ## Texts -/

/-- The commands and then the bound names that start with a word. -/
def startingWith (s : Session) (word : String) : List String :=
  s.offered.filter fun name => word.toList.isPrefixOf name.toList

theorem filter_offered (s : Session) (word : String) :
    (s.offered.map bytes).filter (bytes word).isPrefixOf = (s.startingWith word).map bytes := by
  rw [List.filter_map, startingWith]
  exact congrArg (List.map bytes) (List.filter_congr fun name _ => isPrefixOf_bytes word name)

theorem filterMap_ofBytes? (answers : List String) :
    (answers.map bytes).filterMap ofBytes? = answers := by
  rw [List.filterMap_map, funext (f := ofBytes? ∘ bytes) ofBytes?_bytes, List.filterMap_some]

theorem isSeparator_cases {c : Char} (separates : isSeparator c = true) :
    c = 'λ' ∨ c.utf8Size = 1 := by
  have six : c = ' ' ∨ c = '\t' ∨ c = '(' ∨ c = '.' ∨ c = 'λ' ∨ c = '\\' := by
    simpa [isSeparator] using separates
  rcases six with rfl | rfl | rfl | rfl | rfl | rfl <;> decide

section
variable (s : Session) (front : String) {word : String} (nonempty : word ≠ "")
  (solid : ∀ c ∈ word.toList, isSeparator c = false)
  (ended : ∀ c, front.toList.getLast? = some c → isSeparator c = true)
include nonempty solid ended

/-- In bytes, for commands and bound names: behind a `λ` there is nothing. -/
theorem completions_offered :
    completions (s.offered.map bytes) (front ++ word) =
      if front.toList.getLast? = some 'λ' then []
      else ((s.startingWith word).map (front ++ ·)).map bytes := by
  have behind : ∀ answers : List String, (answers.map (front ++ ·)).map bytes =
      (answers.map bytes).map (bytes front ++ ·) := by
    intro answers
    rw [List.map_map, List.map_map]
    exact List.map_congr_left fun name _ => bytes_append front name
  rw [behind, ← filter_offered]
  cases last : front.toList.getLast? with
  | none =>
      have empty : front = "" := by simpa using last
      subst empty
      rw [if_neg (by simp), String.empty_append, completions_word _ nonempty solid]
      exact (List.map_id _).symm
  | some c =>
      obtain ⟨init, chars⟩ := List.getLast?_eq_some_iff.mp last
      have split : front = String.ofList init ++ String.singleton c := by
        rw [← String.toList_inj, chars]
        simp
      have separates := ended c last
      rw [split, completions_behind _ nonempty solid _ separates]
      by_cases lambda : c = 'λ'
      · subst lambda
        rw [if_pos rfl, List.filter_map, List.filter_eq_nil_iff.mpr]
        · rfl
        · intro name _
          exact ne_true_of_eq_false (isPrefixOf_tail (by decide) (bytes word) name)
      · have narrow := (isSeparator_cases separates).resolve_left lambda
        have length : (String.utf8EncodeChar c).length = 1 := by
          rw [String.length_utf8EncodeChar, narrow]
        have whole : (String.utf8EncodeChar c).take 1 = String.utf8EncodeChar c :=
          List.take_of_length_le (Nat.le_of_eq length)
        have nothing : (String.utf8EncodeChar c).tail = [] := by
          rw [← List.drop_one]
          exact List.drop_of_length_le (Nat.le_of_eq length)
        rw [if_neg (by simpa using lambda), whole, nothing, List.nil_append, bytes_append,
          bytes_singleton]

theorem complete_append :
    s.complete (front ++ word) =
      if front.toList.getLast? = some 'λ' then [] else (s.startingWith word).map (front ++ ·) := by
  rw [complete, completions_offered s front nonempty solid ended]
  split
  · rfl
  · exact filterMap_ofBytes? _

/-- A line ends with a word, and what is before it is empty or ends with a separator.  Unless
this is a `λ`, the line is completed with each command and bound name that starts with the word,
commands first and names in order, whatever else stands before the word.  Behind a `λ` there is
no completion.  The answers have the bytes that were put together for them. -/
theorem complete_last_word :
    (front.toList.getLast? ≠ some 'λ' →
      s.complete (front ++ word) = (s.startingWith word).map (front ++ ·)) ∧
    (front.toList.getLast? = some 'λ' → s.complete (front ++ word) = []) ∧
    (s.complete (front ++ word)).map bytes =
      completions (s.offered.map bytes) (front ++ word) ∧
    s.names.Pairwise (· < ·) ∧ ∀ name, name ∈ s.names ↔ ∃ t, s.lookup name = some t := by
  have completed := complete_append s front nonempty solid ended
  refine ⟨fun other => by rw [completed, if_neg other], fun same => by rw [completed, if_pos same],
    ?_, ?_, fun name => ?_⟩
  · rw [completed, completions_offered s front nonempty solid ended]
    split <;> rfl
  · rw [names, ← Std.TreeMap.map_fst_toList_eq_keys]
    exact pairwise_names_toList s
  · rw [names, Std.TreeMap.mem_keys, Std.TreeMap.mem_iff_isSome_getElem?, lookup,
      Option.isSome_iff_exists]

end

/-- `one`, `true`, `two` and `unit` are bound. -/
def numbered : Session :=
  { new {} with
    bindings := (((Std.TreeMap.empty.insert "two" (.var "x" 0 false)).insert "true"
      (.var "y" 0 false)).insert "one" (.var "z" 0 false)).insert "unit" (.var "x" 0 false) }

theorem complete_last_word_grouped :
    numbered.complete "λé. (t" = ["λé. (true", "λé. (two"] ∧
      numbered.complete "x u" = ["x unbind", "x unit"] := by
  have grouped := (@complete_last_word numbered "λé. (" "t" (by decide) (by simp [isSeparator])
    (by simp [isSeparator])).1 (by simp)
  have spaced := (@complete_last_word numbered "x " "u" (by decide) (by simp [isSeparator])
    (by simp [isSeparator])).1 (by simp)
  exact ⟨grouped.trans (by decide +kernel), spaced.trans (by decide +kernel)⟩

/-- Both `λ` and the backslash separate words, and `e` is the beginning of `env`; behind the one
it is completed and behind the other it is not, for the bytes that are looked up are `BB` and
`65`. -/
theorem complete_behind_lambda : isSeparator 'λ' = true ∧ isSeparator '\\' = true ∧
    (∀ c ∈ "e".toList, isSeparator c = false) ∧ "env" ∈ (new {}).startingWith "e" ∧
    "\\env" ∈ (new {}).complete "\\e" ∧ (new {}).complete "λe" = [] ∧
    (bytes "λe").drop (wordStart "λe") = [0xBB, 0x65] := by
  have solid : ∀ c ∈ "e".toList, isSeparator c = false := by simp [isSeparator]
  have starts : "env" ∈ (new {}).startingWith "e" :=
    List.mem_filter.mpr ⟨List.mem_append_left _ List.mem_cons_self, by decide⟩
  have backslash := complete_append (new {}) "\\" (by decide) solid (by simp [isSeparator])
  have lambda := complete_append (new {}) "λ" (by decide) solid (by simp [isSeparator])
  refine ⟨rfl, rfl, solid, starts, ?_, lambda.trans (if_pos (by simp)), by decide +kernel⟩
  rw [if_neg (by simp)] at backslash
  exact backslash ▸ List.mem_map_of_mem starts

end UntypedLambda.Session
