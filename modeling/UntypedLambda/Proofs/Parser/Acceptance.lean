import UntypedLambda.Proofs.Parser.Grammar
import UntypedLambda.Proofs.Parser.Resolution

/-! # What is read as a term

The reader takes one token after the other and keeps what it has begun in frames.  What it takes
on the way to a term is derived from the grammar with that tree, and everything that is derived
is taken.

Main statements: `Reading.run_of_canonical`, `Reading.canonical_of_run`. -/
set_option autoImplicit false

namespace UntypedLambda

namespace Reading

open Grammar

/-! ## What is derived is taken -/

/-- The tokens lead from one reading to another, whatever stands behind them. -/
def Takes (r : Reading) (w : List Token) (r' : Reading) : Prop :=
  ∀ rest, r.run (w ++ rest) = r'.run rest

theorem run_of_shift {r r' : Reading} {token : Token} (move : r.step token = .shift r')
    (rest : List Token) : r.run (token :: rest) = r'.run rest := by
  rw [run, move]

theorem Takes.nil (r : Reading) : Takes r [] r := fun _ => rfl

theorem Takes.cons {r r' r'' : Reading} {token : Token} {w : List Token}
    (move : r.step token = .shift r') (later : Takes r' w r'') : Takes r (token :: w) r'' := by
  intro rest
  rw [List.cons_append, run_of_shift move, later]

theorem Takes.append {r r' r'' : Reading} {v w : List Token} (first : Takes r v r')
    (second : Takes r' w r'') : Takes r (v ++ w) r'' := by
  intro rest
  rw [List.append_assoc, first, second]

/-- Abstractions whose bodies have no end yet, innermost first. -/
def lambdas (opened : List (Option Term × List Binder)) : List Frame :=
  opened.map fun f => .lambda f.1 f.2

/-- What becomes of a term when the abstractions around it end. -/
def ended : List (Option Term × List Binder) → Term → Term
  | [], t => t
  | f :: opened, t => ended opened (Term.applied f.1 (wrap f.2 t))

theorem close_lambdas (opened : List (Option Term × List Binder)) (frames : List Frame)
    (t : Term) : close (lambdas opened ++ frames) t = close frames (ended opened t) := by
  induction opened generalizing t with
  | nil => rfl
  | cons f opened ih => exact ih _

theorem whole_lambdas (opened : List (Option Term × List Binder)) (t : Term) :
    whole (lambdas opened) t = some (ended opened t) := by
  induction opened generalizing t with
  | nil => rfl
  | cons f opened ih => exact ih _

theorem ended_append (opened : List (Option Term × List Binder)) (f : Option Term × List Binder)
    (t : Term) : ended (opened ++ [f]) t = Term.applied f.1 (wrap f.2 (ended opened t)) := by
  induction opened generalizing t with
  | nil => rfl
  | cons g opened ih => exact ih _

theorem takes_params (frames : List Frame) (head : Option Term) (next : Int)
    {params : List Token} (idents : ∀ p ∈ params, p.kind = .ident) (names : List String) :
    Takes ⟨frames, .params head names, next⟩ params
      ⟨frames, .params head ((params.map Token.lexeme).reverse ++ names), next⟩ := by
  induction params generalizing names with
  | nil => exact .nil _
  | cons param params ih =>
      have kind := idents param List.mem_cons_self
      have move : step ⟨frames, .params head names, next⟩ param =
          .shift ⟨frames, .params head (param.lexeme :: names), next⟩ := by
        simp [step, kind]
      have later := ih (fun p member => idents p (List.mem_cons_of_mem _ member))
        (param.lexeme :: names)
      rw [List.map_cons, List.reverse_cons, List.append_assoc]
      exact .cons move later

theorem takes_opening {front : List Token} {names : List String} (opening : Opening front names)
    (frames : List Frame) (head : Option Term) (next : Int) :
    Takes ⟨frames, .atom head, next⟩ front
      ⟨.lambda head (number next names.reverse) :: frames, .atom none, next + names.length⟩ := by
  obtain @⟨opening, dot, params, isLambda, nonempty, idents, isDot⟩ := opening
  have begun : step ⟨frames, .atom head, next⟩ opening =
      .shift ⟨frames, .params head [], next⟩ := by
    simp [step, isLambda]
  have taken := takes_params frames head next idents []
  rw [List.append_nil] at taken
  have more : (params.map Token.lexeme).reverse ≠ [] := by simp [nonempty]
  obtain ⟨name, names, reversed⟩ := List.exists_cons_of_ne_nil more
  have count : params.length = (name :: names).length := by
    rw [← reversed]
    simp
  have finished : step ⟨frames, .params head (params.map Token.lexeme).reverse, next⟩ dot =
      .shift ⟨.lambda head (number next (params.map Token.lexeme).reverse) :: frames, .atom none,
        next + (params.map Token.lexeme).length⟩ := by
    rw [reversed, List.length_map, count]
    simp [step, isDot]
  exact .cons begun (.append taken (.cons finished (.nil _)))

/-- Where the tokens of a part of the grammar lead.  An abstraction stays open. -/
def Leads : Part → List Token → Named → Prop
  | .atom, w, e => ∀ frames head next, Takes ⟨frames, .atom head, next⟩ w
      ⟨frames, .atom (some (Term.applied head (e.resolve (scope frames) next))), next + e.binders⟩
  | .spine, w, e => ∀ frames next, Takes ⟨frames, .atom none, next⟩ w
      ⟨frames, .atom (some (e.resolve (scope frames) next)), next + e.binders⟩
  | .abstraction, w, e => ∀ frames head next, ∃ opened t, Takes ⟨frames, .atom head, next⟩ w
      ⟨lambdas opened ++ frames, .atom (some t), next + e.binders⟩ ∧
      ended opened t = Term.applied head (e.resolve (scope frames) next)
  | .term, w, e => ∀ frames next, ∃ opened t, Takes ⟨frames, .atom none, next⟩ w
      ⟨lambdas opened ++ frames, .atom (some t), next + e.binders⟩ ∧
      ended opened t = e.resolve (scope frames) next

theorem leads_of_canonical {part : Part} {w : List Token} {e : Named} {behind : List Nat}
    (canonical : Canonical part w e behind) : Leads part w e := by
  induction canonical with
  | @ident name isIdent =>
      intro frames head next
      have move : step ⟨frames, .atom head, next⟩ name = .shift ⟨frames, .atom (some
          (Term.applied head ((Named.var name.lexeme).resolve (scope frames) next))),
          next + (Named.var name.lexeme).binders⟩ := by
        simp [step, isIdent, Named.resolve, Named.binders, resolve, scope]
      exact .cons move (.nil _)
  | @group left right w e _ isLeft isRight _ ih =>
      intro frames head next
      have begun : step ⟨frames, .atom head, next⟩ left =
          .shift ⟨.group head :: frames, .atom none, next⟩ := by
        simp [step, isLeft]
      obtain ⟨opened, t, taken, result⟩ := ih (.group head :: frames) next
      have closed : close (lambdas opened ++ .group head :: frames) t =
          some (frames, Term.applied head (e.resolve (scope frames) next)) := by
        rw [close_lambdas, result]
        rfl
      have finished : step ⟨lambdas opened ++ .group head :: frames, .atom (some t),
          next + e.binders⟩ right = .shift ⟨frames, .atom (some (Term.applied head
            (e.resolve (scope frames) next))), next + e.binders⟩ := by
        simp [step, isRight, closed]
      exact .cons begun (.append taken (.cons finished (.nil _)))
  | single _ ih =>
      intro frames next
      exact ih frames none next
  | @apply v w fn arg _ _ _ _ ihf iha =>
      intro frames next
      have count : next + ((Named.app fn arg).binders : Int) = next + fn.binders + arg.binders := by
        simp only [Named.binders]
        push_cast
        omega
      rw [count]
      exact .append (ihf frames next) (iha frames (some (fn.resolve (scope frames) next)) _)
  | @lambda front w names e _ opening _ ih =>
      intro frames head next
      let frame : Option Term × List Binder := (head, number next names.reverse)
      obtain ⟨opened, t, taken, result⟩ :=
        ih (.lambda head (number next names.reverse) :: frames) (next + names.length)
      have count : next + ((Named.abstract names e).binders : Int) =
          next + names.length + e.binders := by
        rw [Named.binders_abstract]
        push_cast
        omega
      have frameLast : lambdas (opened ++ [frame]) ++ frames =
          lambdas opened ++ .lambda head (number next names.reverse) :: frames := by
        simp [lambdas, frame]
      refine ⟨opened ++ [frame], t, ?_, ?_⟩
      · rw [count, frameLast]
        exact .append (takes_opening opening frames head next) taken
      · rw [ended_append, result, Named.resolve_abstract]
        rfl
  | plain _ ih =>
      intro frames next
      exact ⟨[], _, ih frames next, rfl⟩
  | outer _ ih =>
      intro frames next
      exact ih frames none next
  | @last v w fn arg _ _ _ _ ihf iha =>
      intro frames next
      obtain ⟨opened, t, taken, result⟩ :=
        iha frames (some (fn.resolve (scope frames) next)) (next + fn.binders)
      have count : next + ((Named.app fn arg).binders : Int) = next + fn.binders + arg.binders := by
        simp only [Named.binders]
        push_cast
        omega
      refine ⟨opened, t, ?_, result⟩
      rw [count]
      exact .append (ihf frames next) taken

/-- A token that neither begins an atom nor closes a parenthesis. -/
def Stops (token : Token) : Prop :=
  token.kind ≠ .lparen ∧ token.kind ≠ .ident ∧ token.kind ≠ .lambda ∧ token.kind ≠ .rparen

instance (token : Token) : Decidable (Stops token) :=
  inferInstanceAs (Decidable (_ ∧ _ ∧ _ ∧ _))

theorem step_of_stops {token : Token} (stops : Stops token) (frames : List Frame) (t : Term)
    (next : Int) : step ⟨frames, .atom (some t), next⟩ token = finish frames t := by
  obtain ⟨notLeft, notIdent, notLambda, notRight⟩ := stops
  unfold step
  split <;> simp_all

theorem run_of_canonical {w : List Token} {e : Named} {behind : List Nat}
    (canonical : Canonical .term w e behind) {token : Token} (stops : Stops token)
    (rest : List Token) (next : Int) : (start next).run (w ++ token :: rest) =
      ⟨.ok (e.resolve [] next), token :: rest, next + e.binders⟩ := by
  obtain ⟨opened, t, taken, result⟩ := leads_of_canonical canonical [] next
  have all : whole (lambdas opened ++ []) t = some (e.resolve [] next) := by
    rw [List.append_nil, whole_lambdas, result]
    rfl
  rw [start, taken, run, step_of_stops stops, finish, all]

theorem eq_of_canonical {w : List Token} {e e' : Named} {behind behind' : List Nat}
    (first : Canonical .term w e behind) (second : Canonical .term w e' behind') : e = e' := by
  have stops : Stops .missing := by decide
  have left := run_of_canonical first stops [] 1
  have right := run_of_canonical second stops [] 1
  rw [left, Outcome.mk.injEq, Except.ok.injEq] at right
  exact Named.eq_of_resolve_eq right.1

/-! ## What is taken is derived -/

/-- The application before an atom, if there is one, read from the tokens with that number. -/
inductive Heads (outer : List Label) (next : Int) : List Token → Option Term → Int → Prop where
  | absent : Heads outer next [] none next
  | present {v : List Token} {e : Named} {behind : List Nat} (spine : Canonical .spine v e behind) :
      Heads outer next v (some (e.resolve outer next)) (next + e.binders)

/-- The tokens that have opened the frames, and the next number after them. -/
inductive Opens (first : Int) : List Token → List Frame → Int → Prop where
  | nil : Opens first [] [] first
  | group {u v : List Token} {left : Token} {frames : List Frame} {head : Option Term}
      {next later : Int} (outside : Opens first u frames next)
      (before : Heads (scope frames) next v head later) (isLeft : left.kind = .lparen) :
      Opens first (u ++ (v ++ [left])) (.group head :: frames) later
  | lambda {u v front : List Token} {names : List String} {frames : List Frame}
      {head : Option Term} {next later : Int} (outside : Opens first u frames next)
      (before : Heads (scope frames) next v head later) (opening : Opening front names) :
      Opens first (u ++ (v ++ front)) (.lambda head (number later names.reverse) :: frames)
        (later + names.length)

theorem Heads.of_some {outer : List Label} {next later : Int} {v : List Token} {t : Term}
    (heads : Heads outer next v (some t) later) :
    ∃ e behind, Canonical .spine v e behind ∧ t = e.resolve outer next ∧
      later = next + e.binders := by
  cases heads with
  | present spine => exact ⟨_, _, spine, rfl, rfl⟩

theorem Heads.group {outer : List Label} {next later : Int} {v w : List Token}
    {head : Option Term} {e : Named} {behind : List Nat} {left right : Token}
    (before : Heads outer next v head later) (inside : Canonical .term w e behind)
    (isLeft : left.kind = .lparen) (isRight : right.kind = .rparen) :
    Heads outer next (v ++ left :: (w ++ [right]))
      (some (Term.applied head (e.resolve outer later))) (later + e.binders) := by
  have atom := Canonical.group isLeft isRight inside
  cases before with
  | absent => exact .present (.single atom)
  | @present v f _ spine =>
      have all : Heads outer next _ _ _ := .present (.apply spine atom)
      have count : next + ((Named.app f e).binders : Int) = next + f.binders + e.binders := by
        simp only [Named.binders]
        push_cast
        omega
      rw [count] at all
      exact all

theorem Heads.lambda {outer : List Label} {next later : Int} {v front w : List Token}
    {names : List String} {head : Option Term} {e : Named} {behind : List Nat}
    (before : Heads outer next v head later) (opening : Opening front names)
    (body : Canonical .term w e behind) :
    ∃ e' behind', Canonical .term (v ++ (front ++ w)) e' behind' ∧
      e'.resolve outer next = Term.applied head (wrap (number later names.reverse)
        (e.resolve (number later names.reverse ++ outer) (later + names.length))) ∧
      next + (e'.binders : Int) = later + names.length + e.binders := by
  have abstraction := Canonical.lambda opening body
  have count := Named.binders_abstract names e
  cases before with
  | absent =>
      refine ⟨_, _, .outer abstraction, Named.resolve_abstract names e outer next, ?_⟩
      rw [count]
      push_cast
      omega
  | @present v f _ spine =>
      refine ⟨_, _, .last spine abstraction, ?_, ?_⟩
      · rw [Named.resolve, Named.resolve_abstract]
        rfl
      · simp only [Named.binders, count]
        push_cast
        omega

theorem Opens.close {first next : Int} {u w : List Token} {frames frames' : List Frame}
    {e : Named} {behind : List Nat} {t' : Term} {right : Token}
    (opens : Opens first u frames next) (inside : Canonical .term w e behind)
    (isRight : right.kind = .rparen)
    (closed : close frames (e.resolve (scope frames) next) = some (frames', t')) :
    ∃ u' v next', u ++ (w ++ [right]) = u' ++ v ∧ Opens first u' frames' next' ∧
      Heads (scope frames') next' v (some t') (next + e.binders) := by
  induction opens generalizing w e behind with
  | nil => cases closed
  | @group u v left frames head next later outside before isLeft _ =>
      cases closed
      refine ⟨u, v ++ left :: (w ++ [right]), next, ?_, outside,
        before.group inside isLeft isRight⟩
      simp
  | @lambda u v front names frames head next later outside before opening ih =>
      obtain ⟨e', behind', canonical, resolved, count⟩ := before.lambda opening inside
      have closed' : Reading.close frames (e'.resolve (scope frames) next) = some (frames', t') := by
        rw [resolved]
        exact closed
      obtain ⟨u', v', next', split, opens, heads⟩ := ih canonical closed'
      rw [count] at heads
      refine ⟨u', v', next', ?_, opens, heads⟩
      rw [← split]
      simp

theorem Opens.whole {first next : Int} {u w : List Token} {frames : List Frame} {e : Named}
    {behind : List Nat} {t' : Term} (opens : Opens first u frames next)
    (inside : Canonical .term w e behind)
    (ended : whole frames (e.resolve (scope frames) next) = some t') :
    ∃ e' behind', Canonical .term (u ++ w) e' behind' ∧ t' = e'.resolve [] first ∧
      next + (e.binders : Int) = first + e'.binders := by
  induction opens generalizing w e behind with
  | nil =>
      cases ended
      exact ⟨e, behind, inside, rfl, rfl⟩
  | group => cases ended
  | @lambda u v front names frames head next later outside before opening ih =>
      obtain ⟨e', behind', canonical, resolved, count⟩ := before.lambda opening inside
      have ended' : Reading.whole frames (e'.resolve (scope frames) next) = some t' := by
        rw [resolved]
        exact ended
      obtain ⟨e'', behind'', canonical', result, total⟩ := ih canonical ended'
      refine ⟨e'', behind'', ?_, result, ?_⟩
      · rw [List.append_assoc, List.append_assoc]
        exact canonical'
      · rw [← count, total]

/-- The reading that has taken the tokens, with numbers from `first` on. -/
inductive Taken (first : Int) : List Token → Reading → Prop where
  | atom {u v : List Token} {frames : List Frame} {head : Option Term} {next later : Int}
      (opens : Opens first u frames next) (heads : Heads (scope frames) next v head later) :
      Taken first (u ++ v) ⟨frames, .atom head, later⟩
  | params {u v params : List Token} {opening : Token} {frames : List Frame}
      {head : Option Term} {next later : Int} (opens : Opens first u frames next)
      (heads : Heads (scope frames) next v head later) (isLambda : opening.kind = .lambda)
      (idents : ∀ p ∈ params, p.kind = .ident) :
      Taken first (u ++ (v ++ opening :: params))
        ⟨frames, .params head (params.map Token.lexeme).reverse, later⟩

def TakenMove (first : Int) (u : List Token) (token : Token) (next : Int) : Move → Prop
  | .shift r => Taken first (u ++ [token]) r
  | .accept t => ∃ e behind, Canonical .term u e behind ∧ t = e.resolve [] first ∧
      next = first + e.binders
  | .reject _ => True

theorem takenMove_finish {first next later : Int} {u v : List Token} {frames : List Frame}
    {t : Term} (opens : Opens first u frames next)
    (heads : Heads (scope frames) next v (some t) later) (token : Token) :
    TakenMove first (u ++ v) token later (finish frames t) := by
  unfold finish
  split
  · rename_i t' ended
    obtain ⟨e, behind, spine, rfl, count⟩ := heads.of_some
    rw [count]
    exact opens.whole (.plain spine) ended
  · trivial

theorem Taken.of_atom {first : Int} {u : List Token} {r : Reading} {head : Option Term}
    (taken : Taken first u r) (phase : r.phase = .atom head) :
    ∃ v w next, u = v ++ w ∧ Opens first v r.frames next ∧
      Heads (scope r.frames) next w head r.nextId := by
  cases taken with
  | atom opens heads =>
      cases phase
      exact ⟨_, _, _, rfl, opens, heads⟩
  | params => cases phase

theorem Taken.of_params {first : Int} {u : List Token} {r : Reading} {head : Option Term}
    {names : List String} (taken : Taken first u r) (phase : r.phase = .params head names) :
    ∃ v w opening params next, u = v ++ (w ++ opening :: params) ∧
      names = (params.map Token.lexeme).reverse ∧ Opens first v r.frames next ∧
      Heads (scope r.frames) next w head r.nextId ∧ opening.kind = .lambda ∧
      ∀ p ∈ params, p.kind = .ident := by
  cases taken with
  | atom => cases phase
  | params opens heads isLambda idents =>
      cases phase
      exact ⟨_, _, _, _, _, rfl, rfl, opens, heads, isLambda, idents⟩

theorem Heads.ident {outer : List Label} {next later : Int} {v : List Token}
    {head : Option Term} {name : Token} (before : Heads outer next v head later)
    (isIdent : name.kind = .ident) :
    Heads outer next (v ++ [name]) (some (Term.applied head
      (.var name.lexeme ((outer.lookup name.lexeme).getD 0) false))) later := by
  have atom := Canonical.ident isIdent
  cases before with
  | absent =>
      have all : Heads outer next _ _ _ := .present (.single atom)
      simpa [Named.binders, Named.resolve, Term.applied] using all
  | present spine =>
      have all : Heads outer next _ _ _ := .present (.apply spine atom)
      simpa [Named.binders, Named.resolve, Term.applied] using all

theorem Taken.step {first : Int} {u : List Token} {r : Reading} (taken : Taken first u r)
    (token : Token) : TakenMove first u token r.nextId (r.step token) := by
  fun_cases Reading.step r token with
  | case1 head kind current =>
      obtain ⟨v, w, next, rfl, opens, heads⟩ := taken.of_atom current
      have all : Taken first (v ++ (w ++ [token]) ++ [])
          ⟨.group head :: r.frames, .atom none, r.nextId⟩ := .atom (.group opens heads kind) .absent
      simpa [TakenMove] using all
  | case2 head kind current atom =>
      obtain ⟨v, w, next, rfl, opens, heads⟩ := taken.of_atom current
      have all := Taken.atom opens (heads.ident kind)
      simpa [TakenMove, atom, resolve, scope] using all
  | case3 head kind current =>
      obtain ⟨v, w, next, rfl, opens, heads⟩ := taken.of_atom current
      have all : Taken first (v ++ (w ++ [token])) ⟨r.frames, .params head [], r.nextId⟩ :=
        .params opens heads kind (by simp)
      simpa [TakenMove] using all
  | case4 => trivial
  | case5 t kind current frames t' closed =>
      obtain ⟨v, w, next, rfl, opens, heads⟩ := taken.of_atom current
      obtain ⟨e, behind, spine, rfl, count⟩ := heads.of_some
      obtain ⟨v', w', next', split, opens', heads'⟩ := opens.close (.plain spine) kind closed
      have all := Taken.atom opens' heads'
      rw [← split, ← count] at all
      simpa [TakenMove] using all
  | case6 t kind current _ =>
      obtain ⟨v, w, next, rfl, opens, heads⟩ := taken.of_atom current
      exact takenMove_finish opens heads token
  | case7 t current =>
      obtain ⟨v, w, next, rfl, opens, heads⟩ := taken.of_atom current
      exact takenMove_finish opens heads token
  | case8 head names kind current =>
      obtain ⟨v, w, opening, params, next, rfl, rfl, opens, heads, isLambda, idents⟩ :=
        taken.of_params current
      have more : ∀ p ∈ params ++ [token], p.kind = .ident := by
        intro p member
        rcases List.mem_append.mp member with before | last
        · exact idents p before
        · rw [List.mem_singleton.mp last]
          exact kind
      have all := Taken.params opens heads isLambda more
      simpa [TakenMove] using all
  | case9 => trivial
  | case10 head name names kind current =>
      obtain ⟨v, w, opening, params, next, rfl, same, opens, heads, isLambda, idents⟩ :=
        taken.of_params current
      have nonempty : params ≠ [] := by
        rintro rfl
        cases same
      have whole : Opening (opening :: (params ++ [token])) (params.map Token.lexeme) :=
        .mk isLambda nonempty idents kind
      have all : Taken first _ _ := .atom (.lambda opens heads whole) .absent
      rw [same]
      simpa [TakenMove] using all
  | case11 => trivial

/-- A reading that ends with a term has taken a term of the grammar, and given it the numbers
from the first one on. -/
theorem Taken.run {first : Int} {u tokens : List Token} {r : Reading} {t : Term}
    (taken : Taken first u r) (success : (r.run tokens).result = .ok t) :
    ∃ w e behind, tokens = w ++ (r.run tokens).rest ∧ Canonical .term (u ++ w) e behind ∧
      t = e.resolve [] first ∧ (r.run tokens).nextId = first + e.binders := by
  induction tokens generalizing u r with
  | nil =>
      have move := taken.step .missing
      unfold Reading.run at success ⊢
      split at success <;> rename_i same
      · cases success
      · cases success
        rw [same] at move
        obtain ⟨e, behind, canonical, result, next⟩ := move
        exact ⟨[], e, behind, rfl, by rwa [List.append_nil], result, next⟩
      · cases success
  | cons token tokens ih =>
      have move := taken.step token
      unfold Reading.run at success ⊢
      split at success <;> rename_i same
      · rw [same] at move
        obtain ⟨w, e, behind, split, canonical, result, next⟩ := ih move success
        refine ⟨token :: w, e, behind, ?_, ?_, result, next⟩
        · rw [List.cons_append, ← split]
        · rwa [List.append_assoc] at canonical
      · cases success
        rw [same] at move
        obtain ⟨e, behind, canonical, result, next⟩ := move
        exact ⟨[], e, behind, rfl, by rwa [List.append_nil], result, next⟩
      · cases success

theorem Heads.next_le {outer : List Label} {next later : Int} {v : List Token}
    {head : Option Term} (heads : Heads outer next v head later) : next ≤ later := by
  cases heads with
  | absent => exact Int.le_refl next
  | present spine => omega

theorem Opens.first_le {first next : Int} {u : List Token} {frames : List Frame}
    (opens : Opens first u frames next) : first ≤ next := by
  induction opens with
  | nil => exact Int.le_refl first
  | group _ before _ ih => exact Int.le_trans ih before.next_le
  | lambda _ before _ ih =>
      have := before.next_le
      omega

theorem Taken.first_le {first : Int} {u : List Token} {r : Reading} (taken : Taken first u r) :
    first ≤ r.nextId := by
  cases taken with
  | atom opens heads => exact Int.le_trans opens.first_le heads.next_le
  | params opens heads _ _ => exact Int.le_trans opens.first_le heads.next_le

/-- Numbers only grow, also when reading fails. -/
theorem Taken.first_le_run {first : Int} {u : List Token} {r : Reading} (taken : Taken first u r)
    (tokens : List Token) : first ≤ (r.run tokens).nextId := by
  induction tokens generalizing u r with
  | nil =>
      have move := taken.step .missing
      unfold Reading.run
      split <;> rename_i same
      · rw [same] at move
        exact Taken.first_le move
      · exact taken.first_le
      · exact taken.first_le
  | cons token tokens ih =>
      have move := taken.step token
      unfold Reading.run
      split <;> rename_i same
      · rw [same] at move
        exact ih move
      · exact taken.first_le
      · exact taken.first_le

theorem taken_start (next : Int) : Taken next [] (start next) := by
  have begun : Taken next ([] ++ []) (start next) := .atom .nil .absent
  exact begun

theorem canonical_of_run {tokens : List Token} {next : Int} {t : Term}
    (success : ((start next).run tokens).result = .ok t) :
    ∃ w e behind, tokens = w ++ ((start next).run tokens).rest ∧ Canonical .term w e behind ∧
      t = e.resolve [] next ∧ ((start next).run tokens).nextId = next + e.binders :=
  (taken_start next).run success

theorem le_nextId_run (next : Int) (tokens : List Token) :
    next ≤ ((start next).run tokens).nextId :=
  (taken_start next).first_le_run tokens

end Reading

end UntypedLambda
