import UntypedLambda.Proofs.Parser.Acceptance
import UntypedLambda.Proofs.Parser.Cursor
import UntypedLambda.Proofs.Parser.Errors

/-! # Descending and keeping frames

The procedures that descend through the grammar come to the same outcome as the reader that takes
one token after the other and keeps what it has begun in frames.  Where a procedure is called, the
frames are those of the calls around it.

Main statement: `Cursor.term_before`. -/
set_option autoImplicit false

namespace UntypedLambda

namespace Cursor

/-! ## Where a cursor stands -/

/-- The tokens are all but some at the front, among which is no end. -/
def Reached (tokens rest : List Token) : Prop :=
  ∃ front, tokens = front ++ rest ∧ ∀ token ∈ front, token.kind ≠ .eof

/-- The cursor before the tokens `rest`. -/
def before (tokens rest : List Token) (scopes : Scopes) (nextId : Int)
    (reports : List ParseError) : Cursor where
  tokens := tokens
  position := tokens.length - rest.length
  trail := (List.range (tokens.length - rest.length + 1)).reverse
  scopes := scopes
  nextId := nextId
  reports := reports

namespace Reached

variable {tokens more rest : List Token} {token : Token}

theorem refl (tokens : List Token) : Reached tokens tokens :=
  ⟨[], rfl, fun _ member => nomatch member⟩

theorem tail (reached : Reached tokens (token :: more)) (goesOn : token.kind ≠ .eof) :
    Reached tokens more := by
  obtain ⟨front, rfl, noEnd⟩ := reached
  refine ⟨front ++ [token], by simp, fun other member => ?_⟩
  rcases List.mem_append.mp member with inFront | last
  · exact noEnd other inFront
  · rwa [List.mem_singleton.mp last]

theorem length_le (reached : Reached tokens rest) : rest.length ≤ tokens.length := by
  obtain ⟨front, rfl, _⟩ := reached
  rw [List.length_append]
  exact Nat.le_add_left _ _

theorem exists_cons (closed : Parser.Closed tokens) (reached : Reached tokens rest) :
    ∃ token more, rest = token :: more := by
  obtain ⟨eof, member, isEof⟩ := closed
  obtain ⟨front, rfl, noEnd⟩ := reached
  cases rest with
  | nil =>
      rw [List.append_nil] at member
      exact absurd isEof (noEnd eof member)
  | cons token more => exact ⟨token, more, rfl⟩

end Reached

section

variable {tokens more : List Token} {token : Token} (reached : Reached tokens (token :: more))
variable (scopes : Scopes) (nextId : Int) (reports : List ParseError)
include reached

theorem getElem?_position : tokens[tokens.length - (token :: more).length]? = some token := by
  obtain ⟨front, rfl, _⟩ := reached
  rw [List.length_append, Nat.add_sub_cancel, List.getElem?_append_right (Nat.le_refl _),
    Nat.sub_self, List.getElem?_cons_zero]

theorem isEmpty_tokens : tokens.isEmpty = false := by
  obtain ⟨front, rfl, _⟩ := reached
  cases front <;> rfl

theorem peek_before : (before tokens (token :: more) scopes nextId reports).peek = some token := by
  rw [peek, before, isEmpty_tokens reached]
  exact getElem?_position reached

theorem atEnd_before : (before tokens (token :: more) scopes nextId reports).atEnd =
    some (token.kind == .eof) := by
  rw [atEnd, peek_before reached, before, isEmpty_tokens reached]
  rfl

theorem check_before {kind : Token.Kind} (notEnd : kind ≠ .eof) :
    (before tokens (token :: more) scopes nextId reports).check kind =
      some (token.kind == kind) := by
  rw [check, atEnd_before reached, peek_before reached]
  cases ended : token.kind == .eof with
  | false => rfl
  | true =>
      have other : (token.kind == kind) = false := by
        rw [beq_iff_eq.mp ended]
        exact beq_eq_false_iff_ne.mpr (Ne.symm notEnd)
      rw [other]
      rfl

theorem moveOn_before : (before tokens (token :: more) scopes nextId reports).moveOn =
    before tokens more scopes nextId reports := by
  have next : tokens.length - (token :: more).length + 1 = tokens.length - more.length := by
    obtain ⟨front, rfl, _⟩ := reached
    simp only [List.length_append, List.length_cons]
    omega
  rw [moveOn, before, before]
  dsimp only
  rw [next, List.range_succ, List.reverse_append]
  rfl

theorem previous_before : (before tokens more scopes nextId reports).previous = some token := by
  have here := getElem?_position reached
  have back : tokens.length - more.length - 1 = tokens.length - (token :: more).length := by
    rw [List.length_cons, Nat.sub_sub]
  have moved : ¬ tokens.length - more.length = 0 := by
    obtain ⟨front, rfl, _⟩ := reached
    simp only [List.length_append, List.length_cons]
    omega
  rw [previous, before]
  dsimp only
  rw [if_neg moved, back]
  exact here

theorem advance_before (goesOn : token.kind ≠ .eof) :
    (before tokens (token :: more) scopes nextId reports).advance =
      some (token, before tokens more scopes nextId reports) := by
  have notEnd : (token.kind == .eof) = false := beq_eq_false_iff_ne.mpr goesOn
  rw [advance, atEnd_before reached, notEnd]
  simp only [Option.bind_eq_bind, Option.bind_some, Bool.false_eq_true, if_false,
    moveOn_before reached, previous_before reached]
  rfl

theorem take_before {kind : Token.Kind} (isKind : token.kind = kind) (notEnd : kind ≠ .eof) :
    (before tokens (token :: more) scopes nextId reports).take kind =
      some (true, before tokens more scopes nextId reports) := by
  subst isKind
  rw [take, check_before reached scopes nextId reports notEnd,
    advance_before reached scopes nextId reports notEnd, beq_self_eq_true]
  rfl

theorem take_before_of_ne {kind : Token.Kind} (other : token.kind ≠ kind) (notEnd : kind ≠ .eof) :
    (before tokens (token :: more) scopes nextId reports).take kind =
      some (false, before tokens (token :: more) scopes nextId reports) := by
  rw [take, check_before reached scopes nextId reports notEnd, beq_eq_false_iff_ne.mpr other]
  rfl

theorem consume_before {kind : Token.Kind} (isKind : token.kind = kind) (notEnd : kind ≠ .eof)
    (cause : ParseError.Cause) :
    (before tokens (token :: more) scopes nextId reports).consume kind cause =
      some (.ok token, before tokens more scopes nextId reports) := by
  subst isKind
  rw [consume, check_before reached scopes nextId reports notEnd,
    advance_before reached scopes nextId reports notEnd, beq_self_eq_true]
  rfl

theorem consume_before_of_ne {kind : Token.Kind} (other : token.kind ≠ kind)
    (notEnd : kind ≠ .eof) (cause : ParseError.Cause) :
    (before tokens (token :: more) scopes nextId reports).consume kind cause =
      some (.error (.atToken token cause), before tokens (token :: more) scopes nextId
        (reports ++ [.atToken token cause])) := by
  rw [consume, check_before reached scopes nextId reports notEnd,
    beq_eq_false_iff_ne.mpr other, peek_before reached]
  rfl

theorem startsAtom_before : (before tokens (token :: more) scopes nextId reports).startsAtom =
    some (token.kind == .lparen || token.kind == .ident || token.kind == .lambda) := by
  rw [startsAtom, check_before reached scopes nextId reports Token.Kind.noConfusion,
    check_before reached scopes nextId reports Token.Kind.noConfusion,
    check_before reached scopes nextId reports Token.Kind.noConfusion]
  cases token.kind == .lparen <;> cases token.kind == .ident <;> rfl

end

end Cursor

/-! ## One term -/

namespace Reading

def StartsAtom (token : Token) : Prop :=
  token.kind = .lparen ∨ token.kind = .ident ∨ token.kind = .lambda

instance (token : Token) : Decidable (StartsAtom token) := inferInstanceAs (Decidable (_ ∨ _ ∨ _))

/-- At a token that starts no atom the abstraction around a term has ended. -/
theorem run_lambda {token : Token} (stops : ¬ StartsAtom token) (head : Option Term)
    (binders : List Binder) (frames : List Frame) (t : Term) (next : Int) (rest : List Token) :
    run ⟨.lambda head binders :: frames, .atom (some t), next⟩ (token :: rest) =
      run ⟨frames, .atom (some (Term.applied head (wrap binders t))), next⟩ (token :: rest) := by
  have same : step ⟨.lambda head binders :: frames, .atom (some t), next⟩ token =
      step ⟨frames, .atom (some (Term.applied head (wrap binders t))), next⟩ token := by
    simp only [StartsAtom, not_or] at stops
    by_cases isRight : token.kind = .rparen
    · simp only [step, isRight]
      rfl
    · have stops : Stops token := ⟨stops.1, stops.2.1, stops.2.2, isRight⟩
      rw [step_of_stops stops, step_of_stops stops]
      rfl
  rw [run, run, same]

theorem run_unclosed {token : Token} (stops : ¬ StartsAtom token) (notRight : token.kind ≠ .rparen)
    (head : Option Term) (frames : List Frame) (t : Term) (next : Int) (rest : List Token) :
    run ⟨.group head :: frames, .atom (some t), next⟩ (token :: rest) =
      ⟨.error (.atToken token .noClosing), token :: rest, next⟩ := by
  simp only [StartsAtom, not_or] at stops
  have stops : Stops token := ⟨stops.1, stops.2.1, stops.2.2, notRight⟩
  rw [run, step_of_stops stops]
  rfl

theorem run_ended {token : Token} (stops : ¬ StartsAtom token) (t : Term) (next : Int)
    (rest : List Token) : run ⟨[], .atom (some t), next⟩ (token :: rest) =
      ⟨.ok t, token :: rest, next⟩ := by
  have accepted : step ⟨[], .atom (some t), next⟩ token = .accept t := by
    simp only [StartsAtom, not_or] at stops
    by_cases isRight : token.kind = .rparen
    · simp only [step, isRight]
      rfl
    · have stops : Stops token := ⟨stops.1, stops.2.1, stops.2.2, isRight⟩
      rw [step_of_stops stops]
      rfl
  rw [run, accepted]

end Reading

namespace Cursor

open Reading

/-- A procedure has come as far as the reader that keeps frames: what is read from there on is
what was to be read, or it is the error.  On success the next token satisfies `P`. -/
inductive Follows (tokens : List Token) (frames : List Frame) (reports : List ParseError)
    (wrap : Term → Term) (P : Token → Prop) (limit : Nat) (expected : Outcome) :
    Option (Except ParseError Term × Cursor) → Prop where
  | ok {t : Term} {token : Token} {more : List Token} {next : Int}
      (reached : Reached tokens (token :: more)) (within : (token :: more).length < limit)
      (holds : P token)
      (same : expected = run ⟨frames, .atom (some (wrap t)), next⟩ (token :: more)) :
      Follows tokens frames reports wrap P limit expected
        (some (.ok t, before tokens (token :: more) (.ofBinders (scope frames)) next reports))
  | error {e : ParseError} {rest : List Token} {next : Int} (reached : Reached tokens rest)
      (same : expected = ⟨.error e, rest, next⟩) :
      Follows tokens frames reports wrap P limit expected
        (some (.error e, before tokens rest (.ofBinders (scope frames)) next (reports ++ [e])))

theorem params_before {tokens : List Token} (closed : Parser.Closed tokens) (scopes : Scopes)
    (nextId : Int) (reports : List ParseError) (fuel : Nat) (names : List String)
    {rest : List Token} (reached : Reached tokens rest) (enough : rest.length ≤ fuel)
    (some : names ≠ []) : ∃ name names' token more,
      (before tokens rest scopes nextId reports).params fuel names =
        .some (name :: names', before tokens (token :: more) scopes nextId reports) ∧
      Reached tokens (token :: more) ∧ token.kind ≠ .ident ∧
      (token :: more).length ≤ rest.length ∧
      ∀ frames head next, run ⟨frames, .params head names, next⟩ rest =
        run ⟨frames, .params head (name :: names'), next⟩ (token :: more) := by
  induction fuel generalizing names rest with
  | zero =>
      obtain ⟨token, more, rfl⟩ := reached.exists_cons closed
      simp at enough
  | succ fuel ih =>
      obtain ⟨token, more, rfl⟩ := reached.exists_cons closed
      rw [params, check_before reached scopes nextId reports Token.Kind.noConfusion]
      by_cases isIdent : token.kind = .ident
      · have goesOn : token.kind ≠ .eof := by simp [isIdent]
        obtain ⟨name, names', last, after, found, reached', stops, fewer, same⟩ :=
          ih (token.lexeme :: names) (reached.tail goesOn) (by simpa using enough)
            (List.cons_ne_nil _ _)
        refine ⟨name, names', last, after, ?_, reached', stops, ?_, fun frames head next => ?_⟩
        · simp only [isIdent, beq_self_eq_true, Option.bind_eq_bind, Option.bind_some, if_true,
            advance_before reached scopes nextId reports goesOn]
          exact found
        · simp only [List.length_cons] at fewer ⊢
          omega
        · have move : step ⟨frames, .params head names, next⟩ token =
              .shift ⟨frames, .params head (token.lexeme :: names), next⟩ := by
            simp [step, isIdent]
          rw [run_of_shift move, same]
      · obtain ⟨name, names', rfl⟩ := List.exists_cons_of_ne_nil some
        refine ⟨name, names', token, more, ?_, reached, isIdent, Nat.le_refl _, fun _ _ _ => rfl⟩
        simp [isIdent]

theorem enter_before (tokens rest : List Token) (frames : List Frame) (head : Option Term)
    (names : List String) (next : Int) (reports : List ParseError) :
    (before tokens rest (.ofBinders (scope frames)) next reports).enter names =
      before tokens rest (.ofBinders (scope (.lambda head (number next names) :: frames)))
        (next + names.length) reports := by
  have entered := Scopes.enter_ofBinders next names.reverse (scope frames)
  rw [List.reverse_reverse] at entered
  rw [enter, before, before, Tracked.scope_lambda, ← entered]

/-- When the body of an abstraction has ended, so has the abstraction. -/
theorem Follows.leave {tokens : List Token} {frames : List Frame} {reports : List ParseError}
    {head : Option Term} {first : Int} {names : List String} {limit : Nat} {expected : Outcome}
    {found : Option (Except ParseError Term × Cursor)}
    (body : Follows tokens (.lambda head (number first names) :: frames) reports id
      (¬ StartsAtom ·) limit expected found) :
    Follows tokens frames reports (Term.applied head) (¬ StartsAtom ·) limit expected
      (found.bind fun read => some (leave names read)) := by
  have binders := Tracked.map_fst_number first names
  cases body with
  | @error e rest next reached same =>
      have given := Scopes.abandon_ofBinders (number first names) (scope frames)
      rw [binders] at given
      rw [Option.bind_some, Cursor.leave, before, Tracked.scope_lambda]
      dsimp only
      rw [given]
      exact .error reached same
  | @ok t token more next reached within stops same =>
      have left := Scopes.leave_ofBinders (number first names) (scope frames) t
      rw [binders] at left
      rw [Option.bind_some, Cursor.leave, before, Tracked.scope_lambda]
      dsimp only
      rw [left]
      refine .ok reached within stops ?_
      rw [same]
      exact run_lambda stops head (number first names) frames t next more

/-- A parenthesis has to be closed right behind the term. -/
theorem Follows.close {tokens : List Token} (closed : Parser.Closed tokens) {frames : List Frame}
    {reports : List ParseError} {head : Option Term} {limit : Nat} {expected : Outcome}
    {found : Option (Except ParseError Term × Cursor)}
    (inside : Follows tokens (.group head :: frames) reports id (¬ StartsAtom ·) limit expected
      found) :
    Follows tokens frames reports (Term.applied head) (fun _ => True) limit expected
      (found.bind Cursor.close) := by
  cases inside with
  | error reached same => exact .error reached same
  | @ok t token more next reached within stops same =>
      rw [same, Option.bind_some, Cursor.close]
      by_cases isRight : token.kind = .rparen
      · have goesOn : token.kind ≠ .eof := by simp [isRight]
        have shut : step ⟨.group head :: frames, .atom (some (id t)), next⟩ token =
            .shift ⟨frames, .atom (some (Term.applied head t)), next⟩ := by
          simp [step, isRight, Reading.close]
        obtain ⟨last, after, rfl⟩ := (reached.tail goesOn).exists_cons closed
        rw [consume_before reached _ _ _ isRight Token.Kind.noConfusion, run_of_shift shut]
        exact .ok (reached.tail goesOn) (Nat.lt_of_succ_lt within) trivial rfl
      · rw [consume_before_of_ne reached _ _ _ isRight Token.Kind.noConfusion]
        exact .error reached (run_unclosed stops isRight head frames _ next more)

/-- What each procedure does before any tokens, with that much fuel. -/
structure Agrees (tokens : List Token) (fuel : Nat) : Prop where
  term : ∀ {rest : List Token}, Reached tokens rest → 4 * rest.length + 3 ≤ fuel →
    ∀ frames next reports, Follows tokens frames reports id (¬ StartsAtom ·) (rest.length + 1)
      (run ⟨frames, .atom none, next⟩ rest)
      (Cursor.term fuel (before tokens rest (.ofBinders (scope frames)) next reports))
  abstraction : ∀ {rest : List Token}, Reached tokens rest → 4 * rest.length + 3 ≤ fuel →
    ∀ frames head next reports, Follows tokens frames reports (Term.applied head)
      (¬ StartsAtom ·) (rest.length + 1)
      (run ⟨frames, .params head [], next⟩ rest)
      (Cursor.abstraction fuel (before tokens rest (.ofBinders (scope frames)) next reports))
  application : ∀ {rest : List Token}, Reached tokens rest → 4 * rest.length + 2 ≤ fuel →
    ∀ frames next reports, Follows tokens frames reports id (¬ StartsAtom ·) (rest.length + 1)
      (run ⟨frames, .atom none, next⟩ rest)
      (Cursor.application fuel (before tokens rest (.ofBinders (scope frames)) next reports))
  spine : ∀ {rest : List Token}, Reached tokens rest → 4 * rest.length + 2 ≤ fuel →
    ∀ frames t next reports, Follows tokens frames reports id (¬ StartsAtom ·) (rest.length + 1)
      (run ⟨frames, .atom (some t), next⟩ rest)
      (Cursor.spine fuel t (before tokens rest (.ofBinders (scope frames)) next reports))
  atom : ∀ {rest : List Token}, Reached tokens rest → 4 * rest.length + 1 ≤ fuel →
    ∀ frames head next reports, (head = none ∨ ∀ token ∈ rest.head?, StartsAtom token) →
      Follows tokens frames reports (Term.applied head) (fun _ => True) rest.length
        (run ⟨frames, .atom head, next⟩ rest)
        (Cursor.atom fuel (before tokens rest (.ofBinders (scope frames)) next reports))

def refusal {α : Type} : Except ParseError α → List ParseError
  | .error e => [e]
  | .ok _ => []

theorem Follows.mono {tokens : List Token} {frames : List Frame} {reports : List ParseError}
    {wrap : Term → Term} {P : Token → Prop} {limit limit' : Nat} {expected : Outcome}
    {found : Option (Except ParseError Term × Cursor)} (le : limit ≤ limit')
    (follows : Follows tokens frames reports wrap P limit expected found) :
    Follows tokens frames reports wrap P limit' expected found := by
  cases follows with
  | ok reached within holds same => exact .ok reached (Nat.lt_of_lt_of_le within le) holds same
  | error reached same => exact .error reached same

theorem Follows.weaken {tokens : List Token} {frames : List Frame} {reports : List ParseError}
    {wrap : Term → Term} {P : Token → Prop} {limit : Nat} {expected : Outcome}
    {found : Option (Except ParseError Term × Cursor)}
    (follows : Follows tokens frames reports wrap P limit expected found) :
    Follows tokens frames reports wrap (fun _ => True) limit expected found := by
  cases follows with
  | ok reached within _ same => exact .ok reached within trivial same
  | error reached same => exact .error reached same

section

variable {tokens : List Token} {fuel : Nat} (closed : Parser.Closed tokens)
variable (agrees : Agrees tokens fuel)
include closed agrees

omit closed in
theorem application_succ {rest : List Token} (reached : Reached tokens rest)
    (enough : 4 * rest.length + 2 ≤ fuel + 1) (frames : List Frame) (next : Int)
    (reports : List ParseError) :
    Follows tokens frames reports id (¬ StartsAtom ·) (rest.length + 1)
      (run ⟨frames, .atom none, next⟩ rest) (Cursor.application (fuel + 1)
        (before tokens rest (.ofBinders (scope frames)) next reports)) := by
  have first := agrees.atom reached (by omega) frames none next reports (Or.inl rfl)
  rw [Cursor.application]
  generalize Cursor.atom fuel _ = found at first ⊢
  cases first with
  | error reached' same => exact .error reached' same
  | @ok t _ _ next' reached' within _ same =>
      rw [same]
      exact (agrees.spine reached' (by omega) frames t next' reports).mono (by omega)

theorem spine_succ {rest : List Token} (reached : Reached tokens rest)
    (enough : 4 * rest.length + 2 ≤ fuel + 1) (frames : List Frame) (t : Term) (next : Int)
    (reports : List ParseError) :
    Follows tokens frames reports id (¬ StartsAtom ·) (rest.length + 1)
      (run ⟨frames, .atom (some t), next⟩ rest) (Cursor.spine (fuel + 1) t
        (before tokens rest (.ofBinders (scope frames)) next reports)) := by
  obtain ⟨token, more, rfl⟩ := reached.exists_cons closed
  rw [Cursor.spine, startsAtom_before reached]
  by_cases starts : StartsAtom token
  · have isTrue : (token.kind == .lparen || token.kind == .ident || token.kind == .lambda) =
        true := by
      simpa [StartsAtom, or_assoc] using starts
    have first := agrees.atom reached (by omega) frames (some t) next reports
      (Or.inr (by simpa using starts))
    simp only [isTrue, Option.bind_eq_bind, Option.bind_some, if_true]
    generalize Cursor.atom fuel _ = found at first ⊢
    cases first with
    | error reached' same => exact .error reached' same
    | @ok right _ _ next' reached' within _ same =>
        rw [same]
        exact (agrees.spine reached' (by omega) frames (.app t right) next' reports).mono (by omega)
  · have isFalse : (token.kind == .lparen || token.kind == .ident || token.kind == .lambda) =
        false := by
      simpa [StartsAtom, and_assoc] using starts
    simp only [isFalse, Option.bind_eq_bind, Option.bind_some, Bool.false_eq_true, if_false]
    exact .ok reached (Nat.lt_succ_self _) starts rfl

theorem term_succ {rest : List Token} (reached : Reached tokens rest)
    (enough : 4 * rest.length + 3 ≤ fuel + 1) (frames : List Frame) (next : Int)
    (reports : List ParseError) :
    Follows tokens frames reports id (¬ StartsAtom ·) (rest.length + 1)
      (run ⟨frames, .atom none, next⟩ rest) (Cursor.term (fuel + 1)
        (before tokens rest (.ofBinders (scope frames)) next reports)) := by
  obtain ⟨token, more, rfl⟩ := reached.exists_cons closed
  rw [Cursor.term]
  by_cases isLambda : token.kind = .lambda
  · have move : step ⟨frames, .atom none, next⟩ token = .shift ⟨frames, .params none [], next⟩ := by
      simp [step, isLambda]
    have length : (token :: more).length = more.length + 1 := rfl
    have later := agrees.abstraction (reached.tail (by simp [isLambda])) (by omega) frames none next
      reports
    rw [take_before reached _ _ _ isLambda Token.Kind.noConfusion, run_of_shift move]
    exact later.mono (by omega)
  · rw [take_before_of_ne reached _ _ _ isLambda Token.Kind.noConfusion]
    exact agrees.application reached (by omega) frames next reports

theorem abstraction_succ {rest : List Token} (reached : Reached tokens rest)
    (enough : 4 * rest.length + 3 ≤ fuel + 1) (frames : List Frame) (head : Option Term)
    (next : Int) (reports : List ParseError) : Follows tokens frames reports (Term.applied head)
      (¬ StartsAtom ·) (rest.length + 1)
      (run ⟨frames, .params head [], next⟩ rest)
      (Cursor.abstraction (fuel + 1)
        (before tokens rest (.ofBinders (scope frames)) next reports)) := by
  obtain ⟨token, more, rfl⟩ := reached.exists_cons closed
  have length : (token :: more).length = more.length + 1 := rfl
  rw [Cursor.abstraction]
  by_cases isIdent : token.kind = .ident
  · have goesOn : token.kind ≠ .eof := by simp [isIdent]
    have begun : step ⟨frames, .params head [], next⟩ token =
        .shift ⟨frames, .params head [token.lexeme], next⟩ := by
      simp [step, isIdent]
    obtain ⟨name, names, last, after, found, reached', notIdent, fewer, same⟩ :=
      params_before closed (.ofBinders (scope frames)) next reports fuel [token.lexeme]
        (reached.tail goesOn) (by omega) (List.cons_ne_nil _ _)
    rw [consume_before reached _ _ _ isIdent Token.Kind.noConfusion, run_of_shift begun, same]
    simp only [Option.bind_eq_bind, Option.bind_some, found]
    by_cases isDot : last.kind = .dot
    · have goesOn' : last.kind ≠ .eof := by simp [isDot]
      have opened : step ⟨frames, .params head (name :: names), next⟩ last =
          .shift ⟨.lambda head (number next (name :: names)) :: frames, .atom none,
            next + (name :: names).length⟩ := by
        simp [step, isDot]
      have length' : (last :: after).length = after.length + 1 := rfl
      have body := agrees.term (reached'.tail goesOn') (by omega)
        (.lambda head (number next (name :: names)) :: frames) (next + (name :: names).length)
        reports
      rw [consume_before reached' _ _ _ isDot Token.Kind.noConfusion, run_of_shift opened]
      simp only [Option.bind_some, enter_before tokens after frames head]
      generalize Cursor.term fuel _ = result at body ⊢
      exact body.leave.mono (by omega)
    · have refused : step ⟨frames, .params head (name :: names), next⟩ last = .reject .noDot := by
        unfold step
        split <;> simp_all
      rw [consume_before_of_ne reached' _ _ _ isDot Token.Kind.noConfusion]
      refine .error reached' ?_
      rw [run, refused]
  · have refused : step ⟨frames, .params head [], next⟩ token = .reject .noParameter := by
      unfold step
      split <;> simp_all
    rw [consume_before_of_ne reached _ _ _ isIdent Token.Kind.noConfusion]
    refine .error reached ?_
    rw [run, refused]

theorem atom_succ {rest : List Token} (reached : Reached tokens rest)
    (enough : 4 * rest.length + 1 ≤ fuel + 1) (frames : List Frame) (head : Option Term)
    (next : Int) (reports : List ParseError)
    (starts : head = none ∨ ∀ token ∈ rest.head?, StartsAtom token) :
    Follows tokens frames reports (Term.applied head) (fun _ => True) rest.length
      (run ⟨frames, .atom head, next⟩ rest) (Cursor.atom (fuel + 1)
        (before tokens rest (.ofBinders (scope frames)) next reports)) := by
  obtain ⟨token, more, rfl⟩ := reached.exists_cons closed
  have length : (token :: more).length = more.length + 1 := rfl
  rw [Cursor.atom]
  by_cases isGroup : token.kind = .lparen
  · have opened : step ⟨frames, .atom head, next⟩ token =
        .shift ⟨.group head :: frames, .atom none, next⟩ := by
      simp [step, isGroup]
    have inside := agrees.term (reached.tail (by simp [isGroup])) (by omega)
      (.group head :: frames) next reports
    have noBinder : scope (.group head :: frames) = scope frames := rfl
    rw [noBinder] at inside
    rw [take_before reached _ _ _ isGroup Token.Kind.noConfusion, run_of_shift opened]
    simp only [Option.bind_eq_bind, Option.bind_some, if_true]
    generalize Cursor.term fuel _ = result at inside ⊢
    exact inside.close closed
  · rw [take_before_of_ne reached _ _ _ isGroup Token.Kind.noConfusion]
    simp only [Option.bind_eq_bind, Option.bind_some, Bool.false_eq_true, if_false]
    by_cases isName : token.kind = .ident
    · have move : step ⟨frames, .atom head, next⟩ token = .shift ⟨frames, .atom (some
          (Term.applied head (.var token.lexeme (resolve frames token.lexeme) false))), next⟩ := by
        simp [step, isName]
      have goesOn : token.kind ≠ .eof := by simp [isName]
      obtain ⟨last, after, rfl⟩ := (reached.tail goesOn).exists_cons closed
      simp only [Option.bind_some, if_true, previous_before reached,
        take_before reached _ _ _ isName Token.Kind.noConfusion]
      refine .ok (reached.tail goesOn) (Nat.lt_succ_self _) trivial ?_
      rw [run_of_shift move]
      simp only [before, Scopes.get_ofBinders]
      rfl
    · rw [take_before_of_ne reached _ _ _ isName Token.Kind.noConfusion]
      simp only [Option.bind_some, Bool.false_eq_true, if_false]
      by_cases isLambda : token.kind = .lambda
      · have opened : step ⟨frames, .atom head, next⟩ token =
            .shift ⟨frames, .params head [], next⟩ := by
          simp [step, isLambda]
        have inside := agrees.abstraction (reached.tail (by simp [isLambda])) (by omega) frames
          head next reports
        rw [take_before reached _ _ _ isLambda Token.Kind.noConfusion, run_of_shift opened]
        exact inside.weaken
      · have first : head = none := starts.resolve_right fun isAtom => by
          rcases isAtom token rfl with left | ident | lambda
          · exact isGroup left
          · exact isName ident
          · exact isLambda lambda
        have refused : step ⟨frames, .atom none, next⟩ token = .reject .noExpression := by
          unfold step
          split <;> simp_all
        simp only [Option.bind_some, Bool.false_eq_true, if_false, peek_before reached,
          take_before_of_ne reached _ _ _ isLambda Token.Kind.noConfusion]
        refine .error reached ?_
        rw [first, run, refused]
        rfl

omit agrees in
theorem agrees_of_closed (fuel : Nat) : Agrees tokens fuel := by
  induction fuel with
  | zero =>
      constructor <;> intro rest reached enough <;> omega
  | succ fuel ih =>
      exact ⟨term_succ closed ih, abstraction_succ closed ih, application_succ ih,
        spine_succ closed ih, atom_succ closed ih⟩

omit agrees in
/-- With enough fuel a term is read, or fails, as by the reader that keeps frames. -/
theorem term_before {rest : List Token} (reached : Reached tokens rest)
    (enough : 4 * rest.length + 3 ≤ fuel) (next : Int) (reports : List ParseError) :
    let read := (start next).run rest
    (before tokens rest .empty next reports).term fuel = some (read.result,
      before tokens read.rest .empty read.nextId (reports ++ refusal read.result)) ∧
    Reached tokens read.rest ∧
    ∀ t, read.result = .ok t → ∃ token more, read.rest = token :: more ∧ ¬ StartsAtom token := by
  have follows := (agrees_of_closed closed fuel).term reached enough [] next reports
  have none : Scopes.ofBinders (scope []) = .empty := rfl
  rw [none] at follows
  dsimp only
  rw [start]
  generalize Cursor.term fuel _ = found at follows ⊢
  cases follows with
  | error reached' same =>
      rw [same]
      refine ⟨rfl, reached', fun t failed => ?_⟩
      cases failed
  | @ok t token more next' reached' _ stops same =>
      rw [same, run_ended stops]
      refine ⟨?_, reached', fun _ _ => ⟨token, more, rfl, stops⟩⟩
      rw [refusal, List.append_nil]
      rfl

end

end Cursor

end UntypedLambda
