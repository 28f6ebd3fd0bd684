import UntypedLambda.Proofs.Parser.Lines
import UntypedLambda.Proofs.Term.Renumbering

/-! # Parsers that go on with other numbers

A parser does the same to the same tokens whatever number comes next: it takes as many of them,
fails with the same error, and what it returns differs in its numbers only.  The numbers that are
given out from here on all move by the same amount.

Main statements: `Parser.parseTerm_renumber`, `Parser.next_renumber`. -/
set_option autoImplicit false

namespace UntypedLambda

/-- From `next` on all numbers move by the same amount. -/
def Shifts (σ : Int → Int) (next : Int) : Prop := ∀ id, next ≤ id → σ id = σ next + (id - next)

theorem Shifts.later {σ : Int → Int} {next next' : Int} (shifts : Shifts σ next)
    (le : next ≤ next') : Shifts σ next' := by
  intro id from'
  rw [shifts id (Int.le_trans le from'), shifts next' le]
  omega

namespace Term

theorem applied_renumber (σ : Int → Int) (head : Option Term) (atom : Term) :
    applied (head.map (renumber σ)) (atom.renumber σ) = (applied head atom).renumber σ := by
  cases head <;> rfl

end Term

namespace Reading

open Term

def Binder.renumber (σ : Int → Int) (b : Binder) : Binder := (b.1, σ b.2)

def Frame.renumber (σ : Int → Int) : Frame → Frame
  | .group head => .group (head.map (Term.renumber σ))
  | .lambda head binders => .lambda (head.map (Term.renumber σ)) (binders.map (Binder.renumber σ))

def Phase.renumber (σ : Int → Int) : Phase → Phase
  | .atom head => .atom (head.map (Term.renumber σ))
  | .params head names => .params (head.map (Term.renumber σ)) names

def renumber (σ : Int → Int) (r : Reading) : Reading :=
  ⟨r.frames.map (Frame.renumber σ), r.phase.renumber σ, σ r.nextId⟩

def Move.renumber (σ : Int → Int) : Move → Move
  | .shift r => .shift (r.renumber σ)
  | .accept t => .accept (t.renumber σ)
  | .reject cause => .reject cause

def Outcome.renumber (σ : Int → Int) (o : Outcome) : Outcome :=
  ⟨o.result.map (Term.renumber σ), o.rest, σ o.nextId⟩

/-! ## The binders in scope -/

theorem binders_renumber (σ : Int → Int) (frames : List Frame) :
    (frames.map (Frame.renumber σ)).flatMap Frame.binders =
      (frames.flatMap Frame.binders).map (Binder.renumber σ) := by
  induction frames with
  | nil => rfl
  | cons frame frames ih =>
      cases frame with
      | group head => simpa [Frame.renumber, Frame.binders] using ih
      | lambda head binders => simpa [Frame.renumber, Frame.binders] using ih

theorem lookup_renumber (σ : Int → Int) (binders : List Binder) (name : String) :
    (binders.map (Binder.renumber σ)).lookup name = (binders.lookup name).map σ := by
  induction binders with
  | nil => rfl
  | cons b binders ih =>
      rw [List.map_cons, Binder.renumber, List.lookup_cons, List.lookup_cons, ih]
      split <;> rfl

variable {σ : Int → Int}

theorem resolve_renumber (renumbering : Renumbering σ) (frames : List Frame) (name : String) :
    resolve (frames.map (Frame.renumber σ)) name = σ (resolve frames name) := by
  rw [resolve, resolve, binders_renumber, lookup_renumber]
  cases (frames.flatMap Frame.binders).lookup name with
  | none => exact renumbering.zero.symm
  | some id => rfl

theorem number_renumber {next : Int} (shifts : Shifts σ next) (names : List String) :
    number (σ next) names = (number next names).map (Binder.renumber σ) := by
  rw [number, number, List.map_reverse, List.map_map]
  congr 1
  apply List.map_congr_left
  intro indexed _
  have moved := shifts (next + indexed.2) (by omega)
  simp only [Function.comp_apply, Binder.renumber, moved]
  congr 1
  omega

/-! ## Ending what was begun -/

theorem wrap_renumber (binders : List Binder) (body : Term) :
    wrap (binders.map (Binder.renumber σ)) (body.renumber σ) =
      (wrap binders body).renumber σ := by
  induction binders generalizing body with
  | nil => rfl
  | cons b binders ih => exact ih (.abs b.1 b.2 body)

theorem close_renumber (frames : List Frame) (t : Term) :
    close (frames.map (Frame.renumber σ)) (t.renumber σ) =
      (close frames t).map fun c => (c.1.map (Frame.renumber σ), c.2.renumber σ) := by
  induction frames generalizing t with
  | nil => rfl
  | cons frame frames ih =>
      cases frame with
      | group head => simp [close, Frame.renumber, applied_renumber]
      | lambda head binders =>
          simp only [List.map_cons, Frame.renumber, close, wrap_renumber, applied_renumber, ih]

theorem whole_renumber (frames : List Frame) (t : Term) :
    whole (frames.map (Frame.renumber σ)) (t.renumber σ) =
      (whole frames t).map (Term.renumber σ) := by
  induction frames generalizing t with
  | nil => rfl
  | cons frame frames ih =>
      cases frame with
      | group head => rfl
      | lambda head binders =>
          simp only [List.map_cons, Frame.renumber, whole, wrap_renumber, applied_renumber, ih]

theorem finish_renumber (frames : List Frame) (t : Term) :
    finish (frames.map (Frame.renumber σ)) (t.renumber σ) = (finish frames t).renumber σ := by
  rw [finish, finish, whole_renumber]
  cases whole frames t <;> rfl

/-! ## Reading one term -/

theorem step_renumber (renumbering : Renumbering σ) (r : Reading) (shifts : Shifts σ r.nextId)
    (token : Token) : (r.renumber σ).step token = (r.step token).renumber σ := by
  obtain ⟨frames, phase, next⟩ := r
  cases phase with
  | atom head =>
      cases kind : token.kind with
      | lparen => simp [renumber, Phase.renumber, step, kind, Move.renumber, Frame.renumber]
      | lambda => simp [renumber, Phase.renumber, step, kind, Move.renumber]
      | ident =>
          have applied := applied_renumber σ head
            (.var token.lexeme (resolve frames token.lexeme) false)
          simp only [Term.renumber] at applied
          simp [renumber, Phase.renumber, step, kind, Move.renumber, resolve_renumber renumbering,
            applied]
      | rparen =>
          cases head with
          | none => simp [renumber, Phase.renumber, step, kind, Move.renumber]
          | some t =>
              simp only [renumber, Phase.renumber, Option.map_some, step, kind, close_renumber]
              cases close frames t with
              | none => exact finish_renumber frames t
              | some closed => rfl
      | _ =>
          cases head with
          | none => simp [renumber, Phase.renumber, step, kind, Move.renumber]
          | some t =>
              simp only [renumber, Phase.renumber, Option.map_some, step, kind]
              exact finish_renumber frames t
  | params head names =>
      cases kind : token.kind with
      | ident => simp [renumber, Phase.renumber, step, kind, Move.renumber]
      | dot =>
          cases names with
          | nil => simp [renumber, Phase.renumber, step, kind, Move.renumber]
          | cons name names =>
              have numbered := number_renumber shifts (name :: names)
              have later : next ≤ next + (name :: names).length := by omega
              have last : σ (next + (name :: names).length) =
                  σ next + (next + (name :: names).length - next) := shifts _ later
              have same : σ next + (name :: names).length = σ (next + (name :: names).length) := by
                omega
              simp only [renumber, Phase.renumber, step, kind, Move.renumber, numbered, same,
                List.map_cons, Frame.renumber, Option.map_none]
      | _ =>
          cases names <;> simp [renumber, Phase.renumber, step, kind, Move.renumber]

theorem le_nextId_step (r r' : Reading) (token : Token) :
    r.step token = .shift r' → r.nextId ≤ r'.nextId := by
  fun_cases Reading.step r token with
  | case1 | case2 | case3 | case5 | case8 =>
      intro move
      cases move
      exact Int.le_refl _
  | case4 | case9 | case11 => rintro ⟨⟩
  | case6 => exact fun move => absurd move (finish_ne_shift _ _ _)
  | case7 => exact fun move => absurd move (finish_ne_shift _ _ _)
  | case10 =>
      intro move
      cases move
      exact Int.le_add_of_nonneg_right (Int.natCast_nonneg _)

theorem run_renumber (renumbering : Renumbering σ) (r : Reading) (shifts : Shifts σ r.nextId)
    (tokens : List Token) : (r.renumber σ).run tokens = (r.run tokens).renumber σ := by
  induction tokens generalizing r with
  | nil =>
      rw [run, run, step_renumber renumbering r shifts]
      cases r.step .missing <;> rfl
  | cons token tokens ih =>
      rw [run, run, step_renumber renumbering r shifts]
      cases move : r.step token with
      | shift r' => exact ih r' (shifts.later (le_nextId_step r r' token move))
      | accept t => rfl
      | reject cause => rfl

end Reading

/-! ## Statements -/

namespace Parser

def renumber (σ : Int → Int) (p : Parser) : Parser := ⟨p.tokens, σ p.nextId⟩

/-- What was read, and the parser behind it, with other numbers. -/
def renumberRead {α : Type} (onValue : α → α) (σ : Int → Int)
    (read : Except ParseError α × Parser) : Except ParseError α × Parser :=
  (read.1.map onValue, read.2.renumber σ)

variable {σ : Int → Int}

theorem endLine_renumber {α : Type} (form : Form) (onValue : α → α) (value : α) (p : Parser) :
    endLine form (onValue value) (p.renumber σ) =
      renumberRead onValue σ (endLine form value p) := by
  have first : (p.renumber σ).tokens = p.tokens := rfl
  unfold endLine
  rw [first]
  split <;> rfl

section
variable (renumbering : Renumbering σ) {p : Parser} (shifts : Shifts σ p.nextId)
include renumbering shifts

theorem read_renumber (tokens : List Token) :
    (Reading.start (σ p.nextId)).run tokens =
      ((Reading.start p.nextId).run tokens).renumber σ :=
  Reading.run_renumber renumbering (Reading.start p.nextId) shifts tokens

theorem parseTerm_renumber :
    (p.renumber σ).parseTerm = renumberRead (Term.renumber σ) σ p.parseTerm := by
  have read := read_renumber renumbering shifts (skipNewlines p.tokens)
  have first : (p.renumber σ).tokens = p.tokens := rfl
  have number : (p.renumber σ).nextId = σ p.nextId := rfl
  unfold parseTerm
  rw [first, number]
  dsimp only
  rw [read]
  generalize (Reading.start p.nextId).run (skipNewlines p.tokens) = o
  obtain ⟨result, rest, next⟩ := o
  split
  · rfl
  · cases result with
    | error e => rfl
    | ok t =>
        simp only [Reading.Outcome.renumber, Except.map, Term.isNonTerminating_renumber renumbering]
        split
        · rfl
        · split
          · rfl
          · split <;> rfl

theorem termLine_renumber (form : Form) :
    termLine form (p.renumber σ) = renumberRead (Term.renumber σ) σ (termLine form p) := by
  have read := read_renumber renumbering shifts p.tokens
  have first : (p.renumber σ).tokens = p.tokens := rfl
  have number : (p.renumber σ).nextId = σ p.nextId := rfl
  unfold termLine
  rw [first, number]
  dsimp only
  rw [read]
  generalize (Reading.start p.nextId).run p.tokens = o
  obtain ⟨result, rest, next⟩ := o
  cases result with
  | error e => rfl
  | ok t => exact endLine_renumber form (Term.renumber σ) t ⟨rest, next⟩

theorem termStatement_renumber :
    termStatement (p.renumber σ) = renumberRead (Statement.renumber σ) σ (termStatement p) := by
  have line := termLine_renumber renumbering shifts .term
  unfold termStatement
  rw [line]
  generalize termLine .term p = read
  obtain ⟨result, q⟩ := read
  cases result with
  | error e => rfl
  | ok t =>
      simp only [renumberRead, Except.map, Term.isNonTerminating_renumber renumbering]
      split <;> rfl

theorem statement_renumber :
    (p.renumber σ).statement = renumberRead (Statement.renumber σ) σ p.statement := by
  have first : (p.renumber σ).tokens = p.tokens := rfl
  rcases kinds_cases (peek p.tokens).kind (peek p.tokens.tail).kind with
    ⟨isIdent, isEquals⟩ | isEnv | isHelp | ⟨isUnbind, isIdent⟩ | ⟨isUnbind, notIdent⟩ | others
  · have body : Shifts σ (Parser.mk p.tokens.tail.tail p.nextId).nextId := shifts
    have line := termLine_renumber renumbering body .binding
    rw [statement_binding (p := p.renumber σ) isIdent isEquals, statement_binding isIdent isEquals]
    have moved : termLine .binding { p.renumber σ with tokens := (p.renumber σ).tokens.tail.tail } =
        _ := line
    rw [moved, first]
    generalize termLine .binding ⟨p.tokens.tail.tail, p.nextId⟩ = read
    obtain ⟨result, q⟩ := read
    cases result <;> rfl
  · rw [statement_env (p := p.renumber σ) isEnv, statement_env isEnv]
    exact endLine_renumber .env (Statement.renumber σ) (.command (.env "")) ⟨p.tokens.tail, p.nextId⟩
  · rw [statement_help (p := p.renumber σ) isHelp, statement_help isHelp]
    exact endLine_renumber .help (Statement.renumber σ) (.command (.help ""))
      ⟨p.tokens.tail, p.nextId⟩
  · rw [statement_unbind (p := p.renumber σ) isUnbind isIdent, statement_unbind isUnbind isIdent]
    exact endLine_renumber .unbind (Statement.renumber σ)
      (.command (.unbind (peek p.tokens.tail).lexeme)) ⟨p.tokens.tail.tail, p.nextId⟩
  · rw [statement_noName (p := p.renumber σ) isUnbind notIdent, statement_noName isUnbind notIdent]
    rfl
  · obtain ⟨notBinding, notEnv, notHelp, notUnbind⟩ := others
    rw [statement_term (p := p.renumber σ) notBinding notEnv notHelp notUnbind,
      statement_term notBinding notEnv notHelp notUnbind]
    exact termStatement_renumber renumbering shifts

theorem next_renumber : (p.renumber σ).next =
    renumberRead (Option.map (Statement.renumber σ)) σ p.next := by
  have skipped : Shifts σ (Parser.mk (skipNewlines p.tokens) p.nextId).nextId := shifts
  have read := statement_renumber renumbering skipped
  have first : (p.renumber σ).tokens = p.tokens := rfl
  have front : { p.renumber σ with tokens := skipNewlines p.tokens } =
      Parser.renumber σ ⟨skipNewlines p.tokens, p.nextId⟩ := rfl
  unfold Parser.next
  rw [first]
  dsimp only
  rw [front, read]
  generalize statement ⟨skipNewlines p.tokens, p.nextId⟩ = found
  obtain ⟨result, q⟩ := found
  split
  · rfl
  · cases result <;> rfl

end

end Parser

end UntypedLambda
