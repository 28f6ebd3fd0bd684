import UntypedLambda.Proofs.Parser.SingleTerm
import UntypedLambda.Proofs.Token.Pieces

/-! # Printed terms

The text of a term has parentheses around every abstraction and every application.  Cut into
tokens it is therefore a single atom, whatever stands behind it, and its tree is the term.

Main statement: `Term.ofSource_text`, a text that is printed from a term is read as that term. -/
set_option autoImplicit false

namespace UntypedLambda

open Token Grammar

theorem Token.word_of_isIdentifier {name : String} (isIdentifier : IsIdentifier name)
    (line col : Nat) :
    word name.toList line col = ⟨.ident, name, line, col, name.toList.length⟩ := by
  rw [word, covering, String.ofList_toList, ofWord_eq_ident_iff.mpr isIdentifier.2]

/-- How an abstraction may begin. -/
inductive Sign where
  | greek | backslash | word
deriving DecidableEq, Repr

namespace Sign

/-- The blank behind the word keeps it apart from the first parameter. -/
def text : Sign → String
  | greek => "λ"
  | backslash => "\\"
  | word => "lambda "

theorem pieces_text (sign : Sign) (rest : List Char) (line col : Nat) :
    ∃ token, token.kind = .lambda ∧ pieces line col (sign.text.toList ++ rest) =
      .token token :: pieces line (col + sign.text.toList.length) rest := by
  cases sign with
  | greek => exact ⟨covering .lambda ['λ'] line col, rfl, pieces_mark rfl rest line col⟩
  | backslash => exact ⟨covering .lambda ['\\'] line col, rfl, pieces_mark rfl rest line col⟩
  | word =>
      have isWord : IsWord "lambda" := by decide
      have apart : WordEnds (' ' :: rest) := wordEnds_cons rfl rest
      refine ⟨Token.word "lambda".toList line col, ?_, ?_⟩
      · rw [Token.word, covering]
        rfl
      · exact (pieces_word isWord apart line col).trans
          (congrArg (_ :: ·) (pieces_blank rfl rest line _))

end Sign

/-- Names with a blank between each two of them. -/
def spaced : List String → List Char
  | [] => []
  | [name] => name.toList
  | name :: second :: names => name.toList ++ ' ' :: spaced (second :: names)

theorem pieces_spaced {names : List String} (identifiers : ∀ name ∈ names, IsIdentifier name)
    {rest : List Char} (ends : WordEnds rest) (line col : Nat) :
    ∃ params : List Token, (∀ p ∈ params, p.kind = .ident) ∧ params.map Token.lexeme = names ∧
      pieces line col (spaced names ++ rest) =
        params.map .token ++ pieces line (col + (spaced names).length) rest := by
  induction names generalizing col with
  | nil => exact ⟨[], by simp, rfl, rfl⟩
  | cons name names ih =>
      have isIdentifier := identifiers name List.mem_cons_self
      cases names with
      | nil =>
          refine ⟨[⟨.ident, name, line, col, name.toList.length⟩], by simp, rfl, ?_⟩
          rw [spaced, pieces_word isIdentifier.1 ends, word_of_isIdentifier isIdentifier]
          rfl
      | cons second names =>
          obtain ⟨params, idents, lexemes, cut⟩ :=
            ih (fun n member => identifiers n (List.mem_cons_of_mem _ member))
              (col + name.toList.length + 1)
          refine ⟨⟨.ident, name, line, col, name.toList.length⟩ :: params, ?_, ?_, ?_⟩
          · simpa using idents
          · rw [List.map_cons, lexemes]
          · have apart := wordEnds_cons (c := ' ') rfl (spaced (second :: names) ++ rest)
            have column : col + name.toList.length + 1 + (spaced (second :: names)).length =
                col + (spaced (name :: second :: names)).length := by
              simp only [spaced, List.length_cons, List.length_append]
              omega
            rw [spaced, List.append_assoc, List.cons_append, pieces_word isIdentifier.1 apart,
              word_of_isIdentifier isIdentifier, pieces_blank rfl, cut, column]
            rfl

/-- The text is cut into tokens with that tree, wherever it stands and whatever is behind it,
as long as no word goes on there. -/
def Shows (part : Part) (e : Named) (text : List Char) : Prop :=
  ∀ (rest : List Char) (line col : Nat), WordEnds rest →
    ∃ w behind, Canonical part w e behind ∧
      pieces line col (text ++ rest) = w.map .token ++ pieces line (col + text.length) rest

namespace Shows

theorem identifier {name : String} (isIdentifier : IsIdentifier name) :
    Shows .atom (.var name) name.toList := by
  intro rest line col ends
  refine ⟨[⟨.ident, name, line, col, name.toList.length⟩], [], .ident rfl, ?_⟩
  rw [pieces_word isIdentifier.1 ends, word_of_isIdentifier isIdentifier]
  rfl

theorem single {e : Named} {text : List Char} (shows : Shows .atom e text) :
    Shows .spine e text := by
  intro rest line col ends
  obtain ⟨w, behind, atom, cut⟩ := shows rest line col ends
  exact ⟨w, behind, .single atom, cut⟩

theorem plain {e : Named} {text : List Char} (shows : Shows .spine e text) :
    Shows .term e text := by
  intro rest line col ends
  obtain ⟨w, behind, spine, cut⟩ := shows rest line col ends
  exact ⟨w, behind, .plain spine, cut⟩

theorem term {e : Named} {text : List Char} (shows : Shows .atom e text) : Shows .term e text :=
  shows.single.plain

theorem group {e : Named} {text : List Char} (inside : Shows .term e text) :
    Shows .atom e ('(' :: (text ++ [')'])) := by
  intro rest line col _
  obtain ⟨w, behind, canonical, cut⟩ :=
    inside (')' :: rest) line (col + 1) (wordEnds_cons rfl rest)
  have isLeft : (covering .lparen ['('] line col).kind = .lparen := rfl
  have isRight : (covering .rparen [')'] line (col + 1 + text.length)).kind = .rparen := rfl
  refine ⟨_, _, .group isLeft isRight canonical, ?_⟩
  have column : col + 1 + text.length + 1 = col + ('(' :: (text ++ [')'])).length := by
    simp only [List.length_cons, List.length_append, List.length_nil]
    omega
  rw [List.cons_append, List.append_assoc, pieces_mark rfl, List.singleton_append, cut,
    pieces_mark rfl, column]
  simp

/-- An abstraction over several parameters at once, whatever sign it begins with. -/
theorem abstraction (sign : Sign) {names : List String} {e : Named} {text : List Char}
    (nonempty : names ≠ []) (identifiers : ∀ name ∈ names, IsIdentifier name)
    (body : Shows .term e text) : Shows .term (.abstract names e)
      (sign.text.toList ++ (spaced names ++ '.' :: ' ' :: text)) := by
  intro rest line col ends
  obtain ⟨opening, isLambda, begins⟩ :=
    sign.pieces_text (spaced names ++ '.' :: ' ' :: (text ++ rest)) line col
  obtain ⟨params, idents, lexemes, cut⟩ := pieces_spaced identifiers
    (wordEnds_cons (c := '.') rfl (' ' :: (text ++ rest))) line (col + sign.text.toList.length)
  obtain ⟨w, behind, canonical, inside⟩ := body rest line
    (col + sign.text.toList.length + (spaced names).length + 1 + 1) ends
  have isDot : (covering .dot ['.'] line
    (col + sign.text.toList.length + (spaced names).length)).kind = .dot := rfl
  have some : params ≠ [] := by
    rintro rfl
    exact nonempty lexemes.symm
  have front := Opening.mk isLambda some idents isDot
  rw [lexemes] at front
  refine ⟨_, _, .outer (.lambda front canonical), ?_⟩
  have column : col + sign.text.toList.length + (spaced names).length + 1 + 1 + text.length =
      col + (sign.text.toList ++ (spaced names ++ '.' :: ' ' :: text)).length := by
    simp only [List.length_cons, List.length_append]
    omega
  rw [List.append_assoc, List.append_assoc, List.cons_append, List.cons_append, begins, cut,
    pieces_mark rfl, pieces_blank rfl, inside, column]
  simp

theorem lambda {name : String} {e : Named} {text : List Char} (isIdentifier : IsIdentifier name)
    (body : Shows .term e text) :
    Shows .term (.abs name e) ('λ' :: (name.toList ++ '.' :: ' ' :: text)) :=
  abstraction .greek (List.cons_ne_nil name [])
    (fun _ member => List.mem_singleton.mp member ▸ isIdentifier) body

/-- One more argument. -/
theorem apply {fn arg : Named} {left right : List Char} (function : Shows .spine fn left)
    (argument : Shows .atom arg right) :
    Shows .spine (.app fn arg) (left ++ ' ' :: right) := by
  intro rest line col ends
  have apart : WordEnds (' ' :: (right ++ rest)) := wordEnds_cons rfl _
  obtain ⟨v, behind, spine, cutLeft⟩ := function _ line col apart
  obtain ⟨w, behind', atom, cutRight⟩ := argument rest line (col + left.length + 1) ends
  refine ⟨_, _, .apply spine atom, ?_⟩
  have column : col + left.length + 1 + right.length = col + (left ++ ' ' :: right).length := by
    simp only [List.length_cons, List.length_append]
    omega
  rw [List.append_assoc, List.cons_append, cutLeft, pieces_blank rfl, cutRight, column]
  simp

end Shows

/-- Such a text is cut into the tokens of the tree and the marks at the end. -/
theorem scan_of_shows {e : Named} {source : String} (shows : Shows .term e source.toList) :
    ∃ w behind newline eof, Canonical .term w e behind ∧ newline.kind = .newline ∧
      eof.kind = .eof ∧ scan source = ⟨w ++ [newline, eof], []⟩ := by
  obtain ⟨w, behind, canonical, cut⟩ := shows [] 1 1 (fun c member => nomatch member)
  have none : pieces 1 (1 + source.toList.length) [] = [] := by
    rw [pieces]
  rw [List.append_nil, none, List.append_nil] at cut
  have tokens : (w.map Piece.token).filterMap Piece.token? = w := by
    rw [List.filterMap_map]
    exact List.filterMap_some
  have errors : (w.map Piece.token).filterMap Piece.bad? = [] := by
    rw [List.filterMap_map]
    exact List.filterMap_eq_nil_iff.mpr fun _ _ => rfl
  have noNewline : w.getLast?.any (·.kind == .newline) = false := by
    cases last : w.getLast? with
    | none => rfl
    | some token =>
        have kind := canonical.isTermKind (List.mem_of_getLast? last)
        rcases kind with kind | kind | kind | kind | kind <;> simp [kind]
  obtain ⟨line, col, place⟩ : ∃ line col,
      endOf 1 1 source.toList = (line, col) := ⟨_, _, rfl⟩
  refine ⟨w, behind, ⟨.newline, "<newline>", line, col, 0⟩, ⟨.eof, "", line, col, 0⟩, canonical,
    rfl, rfl, ?_⟩
  simp only [scan, cut, tokens, errors, closing, noNewline, place]
  rfl

theorem parseTerm_of_shows {e : Named} {source : String} (shows : Shows .term e source.toList)
    (next : Int) : (Parser.mk (scan source).tokens next).parseTerm.1 =
      if (e.resolve [] next).isNonTerminating then .error .nonTerminating
      else .ok (e.resolve [] next) := by
  obtain ⟨w, behind, newline, eof, canonical, isNewline, isEof, scanned⟩ := scan_of_shows shows
  have isBefore : Parser.Newlines [] := fun token member => nomatch member
  have isAfter : Parser.Newlines [newline] := by
    intro token member
    rw [List.mem_singleton.mp member]
    exact isNewline
  rw [scanned]
  exact Parser.parseTerm_of_canonical isBefore isAfter (List.cons_ne_nil _ _) isEof canonical next

theorem ofSource_of_shows {e : Named} {source : String} (shows : Shows .term e source.toList)
    (terminates : (e.resolve [] 1).isNonTerminating = false) :
    (scan source).errors = [] ∧ Term.ofSource source = .ok (e.resolve [] 1) := by
  obtain ⟨_, _, _, _, _, _, _, scanned⟩ := scan_of_shows shows
  have errors : (scan source).errors = [] := by rw [scanned]
  have read := parseTerm_of_shows shows 1
  rw [terminates] at read
  refine ⟨errors, ?_⟩
  simp only [Term.ofSource, errors]
  exact congrArg (Except.mapError Error.parse) read

/-! ## Names -/

namespace Named

def names : Named → List String
  | var name => [name]
  | abs name body => name :: body.names
  | app fn arg => fn.names ++ arg.names

theorem names_abstract (params : List String) (body : Named) :
    (abstract params body).names = params ++ body.names := by
  induction params with
  | nil => rfl
  | cons name params ih => exact congrArg (name :: ·) ih

theorem map_fst_labels_resolve (e : Named) (scope : List Label) (next : Int) :
    (e.resolve scope next).labels.map Prod.fst = e.names := by
  induction e generalizing scope next with
  | var name => rfl
  | abs name body ih => simp [resolve, Term.labelsOf, names, ih]
  | app fn arg ihf iha => simp [resolve, Term.labelsOf, names, ihf, iha]

end Named

theorem exists_mem_append {P : Token → Prop} {v w : List Token}
    (found : (∃ token ∈ v, P token) ∨ ∃ token ∈ w, P token) : ∃ token ∈ v ++ w, P token := by
  rcases found with ⟨token, member, holds⟩ | ⟨token, member, holds⟩
  · exact ⟨token, List.mem_append_left _ member, holds⟩
  · exact ⟨token, List.mem_append_right _ member, holds⟩

/-- All names in a tree are lexemes of identifiers. -/
theorem Grammar.Canonical.exists_ident {part : Part} {w : List Token} {e : Named}
    {behind : List Nat} (canonical : Canonical part w e behind) {name : String}
    (member : name ∈ e.names) : ∃ token ∈ w, token.kind = .ident ∧ token.lexeme = name := by
  induction canonical with
  | ident isIdent =>
      rw [List.mem_singleton.mp member]
      exact ⟨_, List.mem_cons_self, isIdent, rfl⟩
  | group _ _ _ ih =>
      obtain ⟨token, inside, found⟩ := ih member
      exact ⟨token, by simp [inside], found⟩
  | single _ ih => exact ih member
  | apply _ _ ihf iha => exact exists_mem_append ((List.mem_append.mp member).imp ihf iha)
  | lambda opening _ ih =>
      rw [Named.names_abstract] at member
      refine exists_mem_append ((List.mem_append.mp member).imp ?_ ih)
      intro param
      obtain @⟨opening, dot, params, _, _, idents, _⟩ := opening
      obtain ⟨token, inside, rfl⟩ := List.mem_map.mp param
      exact ⟨token, by simp [inside], idents token inside, rfl⟩
  | plain _ ih => exact ih member
  | outer _ ih => exact ih member
  | last _ _ ihf iha => exact exists_mem_append ((List.mem_append.mp member).imp ihf iha)

/-! ## The text of a term -/

namespace Named

theorem shows_text {e : Named} (identifiers : ∀ name ∈ e.names, IsIdentifier name)
    (scope : List Label) (next : Int) : Shows .atom e (e.resolve scope next).text.toList := by
  induction e generalizing scope next with
  | var name => exact .identifier (identifiers name List.mem_cons_self)
  | abs name body ih =>
      have inside := ih (fun n member => identifiers n (List.mem_cons_of_mem _ member))
        ((name, next) :: scope) (next + 1)
      have atom := Shows.group (.lambda (identifiers name List.mem_cons_self) inside.term)
      simpa [resolve, Term.text] using atom
  | app fn arg ihf iha =>
      have left := ihf (fun n member => identifiers n (List.mem_append_left _ member)) scope next
      have right := iha (fun n member => identifiers n (List.mem_append_right _ member)) scope
        (next + fn.binders)
      simpa [resolve, Term.text] using (left.single.apply right).plain.group

theorem scan_text {e : Named} (identifiers : ∀ name ∈ e.names, IsIdentifier name)
    (scope : List Label) (next : Int) :
    ∃ w behind newline eof, Canonical .term w e behind ∧ newline.kind = .newline ∧
      eof.kind = .eof ∧ scan (e.resolve scope next).text = ⟨w ++ [newline, eof], []⟩ :=
  scan_of_shows (shows_text identifiers scope next).term

theorem ofSource_text_resolve {e : Named} (identifiers : ∀ name ∈ e.names, IsIdentifier name)
    (terminates : (e.resolve [] 1).isNonTerminating = false) :
    (scan (e.resolve [] 1).text).errors = [] ∧
      Term.ofSource (e.resolve [] 1).text = .ok (e.resolve [] 1) :=
  ofSource_of_shows (shows_text identifiers [] 1).term terminates

end Named

namespace Term

/-- What is read from a source has identifiers for names. -/
theorem exists_resolve_of_parseTerm {source : String} {next : Int} {t : Term}
    (success : (Parser.mk (scan source).tokens next).parseTerm.1 = .ok t) :
    ∃ e : Named, t = e.resolve [] next ∧ (∀ name ∈ e.names, IsIdentifier name) ∧
      t.isNonTerminating = false := by
  obtain ⟨before, w, after, rest, e, behind, split, _, _, _, _, canonical, result, terminates⟩ :=
    Parser.exists_canonical_of_parseTerm success
  refine ⟨e, result, ?_, terminates⟩
  intro name member
  obtain ⟨token, inside, isIdent, rfl⟩ := canonical.exists_ident member
  have scanned : token ∈ (Parser.mk (scan source).tokens next).tokens := by
    rw [split]
    simp [inside]
  exact isIdentifier_of_mem_scan scanned isIdent

theorem exists_resolve_of_ofSource {source : String} {t : Term}
    (success : ofSource source = .ok t) :
    ∃ e : Named, t = e.resolve [] 1 ∧ (∀ name ∈ e.names, IsIdentifier name) ∧
      t.isNonTerminating = false := by
  unfold ofSource at success
  dsimp only at success
  split at success
  · cases success
  · cases read : ((Parser.new 1).load (scan source).tokens).parseTerm.1 with
    | error e =>
        rw [read] at success
        cases success
    | ok u =>
        rw [read] at success
        cases success
        exact exists_resolve_of_parseTerm read

/-- A term whose names are identifiers, scoped by name and numbered from one in pre-order, is
read back from its text, marks of renamed variables apart.  So is every term that was read. -/
theorem ofSource_text :
    (∀ t : Term, t.HoleFree → (∀ name ∈ t.names, IsIdentifier name) →
      t.EveryVar ScopedByName [] → t.NumberedFrom 1 → t.isNonTerminating = false →
      (scan t.text).errors = [] ∧ ofSource t.text = .ok t.unmarked) ∧
    ∀ (source : String) (t : Term), ofSource source = .ok t →
      (scan t.text).errors = [] ∧ ofSource t.text = .ok t := by
  constructor
  · intro t whole identifiers named numbered terminates
    obtain ⟨e, same⟩ := exists_resolve whole named numbered
    have names : ∀ name ∈ e.names, IsIdentifier name := by
      intro name member
      rw [← e.map_fst_labels_resolve [] 1, ← same, labels_unmarked, List.mem_map] at member
      exact identifiers name (mem_names.mpr member)
    rw [← isNonTerminating_unmarked, same] at terminates
    rw [← text_unmarked, same]
    exact Named.ofSource_text_resolve names terminates
  · intro source t success
    obtain ⟨e, rfl, identifiers, terminates⟩ := exists_resolve_of_ofSource success
    exact Named.ofSource_text_resolve identifiers terminates

/-- `(λx. (x (λx. (y x))))`, whose last variable belongs to the inner binder. -/
theorem ofSource_text_shadowed :
    ∃ t, t = abs "x" 1 (app (var "x" 1 false)
        (abs "x" 2 (app (var "y" 0 false) (var "x" 2 false)))) ∧
      (scan t.text).errors = [] ∧ ofSource t.text = .ok t.unmarked ∧
      ofSource t.unmarked.text = .ok t.unmarked := by
  obtain ⟨noErrors, read⟩ := ofSource_text.1 (abs "x" 1 (app (var "x" 1 false)
    (abs "x" 2 (app (var "y" 0 false) (var "x" 2 false))))) (by decide) (by decide) (by decide)
    (by decide) (by decide)
  exact ⟨_, rfl, noErrors, read, (ofSource_text.2 _ _ read).2⟩

end Term

end UntypedLambda
