import UntypedLambda.Expansion
import UntypedLambda.Proofs.Reduction.Derivation
import UntypedLambda.Proofs.Term.Renumbering

/-! # Work on terms with other numbers

Expansion and reduction of a term with other numbers go through the same steps and give the same
result with the other numbers.  The numbers that a reduction hands out are not replaced, so the
counters are the same as well.

Main statements: `Expansion.run_renumber`, `Reduction.run_renumber`. -/
set_option autoImplicit false

namespace UntypedLambda

open Term

/-! ## Errors -/

namespace Stop

def Cause.renumber (σ : Int → Int) : Cause → Cause
  | .hole => .hole
  | .tooDeep visited depth => .tooDeep (visited.renumber σ) depth

def renumber (σ : Int → Int) (s : Stop) : Stop := ⟨s.cause.renumber σ, s.reached.renumber σ⟩

end Stop

theorem DepthError.message_eq {d e : DepthError} (same : d.visited.text = e.visited.text) :
    d.message = e.message := by
  unfold DepthError.message
  rw [same]

namespace Error

def renumber (σ : Int → Int) : Error → Error
  | lex e => lex e
  | parse e => parse e
  | depth e => depth ⟨e.visited.renumber σ, e.depth, e.reached.renumber σ⟩
  | walk e => walk e
  | during task cause => during task (cause.renumber σ)

variable (σ : Int → Int)

@[simp] theorem message_renumber (e : Error) : (e.renumber σ).message = e.message := by
  induction e with
  | lex e => rfl
  | parse e => rfl
  | depth e => exact DepthError.message_eq (text_renumber σ e.visited)
  | walk e => rfl
  | during task cause ih => rw [renumber, message, message, ih]

theorem cause_renumber (e : Error) : (e.renumber σ).cause = e.cause.renumber σ := by
  induction e with
  | during task cause ih => exact ih
  | _ => rfl

@[simp] theorem location?_renumber (e : Error) : (e.renumber σ).location? = e.location? := by
  unfold location?
  rw [cause_renumber]
  cases e.cause <;> rfl

end Error

theorem Stop.toError_renumber (σ : Int → Int) (atHole : WalkError) (s : Stop) :
    (s.renumber σ).toError atHole = (s.toError atHole).renumber σ := by
  obtain ⟨cause, reached⟩ := s
  cases cause <;> rfl

/-- A result with other numbers, be it a term or an error. -/
def Term.renumberResult {ε : Type} (onError : ε → ε) (σ : Int → Int) :
    Except ε Term → Except ε Term
  | .ok t => .ok (t.renumber σ)
  | .error e => .error (onError e)

/-- The second function does to terms with other numbers what the first does to terms. -/
def Commutes (σ : Int → Int) (f f' : Term → Term) : Prop :=
  ∀ t : Term, f' (t.renumber σ) = (f t).renumber σ

theorem commutes_body (σ : Int → Int) (name : String) (id : Int) :
    Commutes σ (.abs name id) (.abs name (σ id)) := fun _ => rfl

theorem commutes_fn (σ : Int → Int) (arg : Term) :
    Commutes σ (.app · arg) (.app · (arg.renumber σ)) := fun _ => rfl

theorem commutes_arg (σ : Int → Int) (fn : Term) :
    Commutes σ (.app fn) (.app (fn.renumber σ)) := fun _ => rfl

theorem mapError_renumberResult (σ : Int → Int) (atHole : WalkError) (r : Except Stop Term) :
    (renumberResult (Stop.renumber σ) σ r).mapError (Stop.toError atHole) =
      renumberResult (Error.renumber σ) σ (r.mapError (Stop.toError atHole)) := by
  cases r with
  | ok t => rfl
  | error s => exact congrArg Except.error (Stop.toError_renumber σ atHole s)

/-! ## Expansion -/

namespace Expansion

def Unfolding.renumber (σ : Int → Int) (u : Unfolding) : Unfolding :=
  ⟨u.name, u.definition.renumber σ⟩

namespace Run

def renumber (σ : Int → Int) (r : Run) : Run :=
  ⟨renumberResult (Stop.renumber σ) σ r.result, r.unfoldings.map (Unfolding.renumber σ)⟩

variable {σ : Int → Int}

theorem inside_renumber {wrap wrap' : Term → Term} (same : Commutes σ wrap wrap') (r : Run) :
    (r.renumber σ).inside wrap' = (r.inside wrap).renumber σ := by
  obtain ⟨result, unfoldings⟩ := r
  cases result with
  | ok t => rfl
  | error s =>
      simp [Run.renumber, Run.inside, renumberResult, Stop.inside, Stop.renumber, same s.reached]

theorem map_renumber {f f' : Term → Term} (same : Commutes σ f f') (r : Run) :
    (r.renumber σ).map f' = (r.map f).renumber σ := by
  obtain ⟨result, unfoldings⟩ := r
  cases result with
  | ok t => simp [Run.renumber, Run.map, renumberResult, Except.map, same t]
  | error s => rfl

theorem andThen_renumber {next next' : Term → Run}
    (same : ∀ t, next' (t.renumber σ) = (next t).renumber σ) (r : Run) :
    (r.renumber σ).andThen next' = (r.andThen next).renumber σ := by
  obtain ⟨result, unfoldings⟩ := r
  cases result with
  | ok t => simp [Run.renumber, Run.andThen, renumberResult, same]
  | error s => rfl

theorem toExcept_renumber (r : Run) :
    (r.renumber σ).toExcept = renumberResult (Error.renumber σ) σ r.toExcept :=
  mapError_renumberResult σ .holeExpanded r.result

theorem inPlace_renumber (given : Term) (r : Run) :
    (r.renumber σ).inPlace (given.renumber σ) = (r.inPlace given).renumber σ := by
  obtain ⟨result, unfoldings⟩ := r
  cases result with
  | ok t => cases given <;> rfl
  | error s => rfl

end Run

section
variable {σ : Int → Int} (renumbering : Renumbering σ)
  {definitions definitions' : String → Option Term}
  (same : ∀ name, definitions' name = (definitions name).map (renumber σ))
include renumbering same

theorem visit_renumber (room depth : Nat) (t : Term) :
    visit definitions' room depth (t.renumber σ) =
      (visit definitions room depth t).renumber σ := by
  induction room generalizing depth t with
  | zero => rfl
  | succ room ih =>
      cases t with
      | hole => rfl
      | var name id renamed =>
          have found : (if σ id = 0 then definitions' name else none) =
              (if id = 0 then definitions name else none).map (renumber σ) := by
            rw [same]
            simp only [renumbering.eq_zero_iff]
            split <;> rfl
          simp only [renumber, visit, found]
          cases (if id = 0 then definitions name else none) with
          | none => rfl
          | some definition =>
              have stays : Commutes σ (fun _ => .var name id renamed)
                  (fun _ => .var name (σ id) renamed) := fun _ => rfl
              simp only [Option.map_some, ih, Run.inside_renumber stays]
              rfl
      | abs name id body =>
          simp only [renumber, visit]
          rw [ih, Run.inside_renumber (commutes_body σ name id),
            Run.map_renumber (commutes_body σ name id)]
      | app fn arg =>
          simp only [renumber, visit]
          rw [ih, Run.inside_renumber (commutes_fn σ arg), Run.andThen_renumber]
          intro fn
          rw [ih, Run.inside_renumber (commutes_arg σ fn), Run.map_renumber (commutes_arg σ fn)]

theorem run_renumber (bound : Nat) (t : Term) :
    run definitions' bound (t.renumber σ) = (run definitions bound t).renumber σ :=
  visit_renumber renumbering same (bound + 1) 0 t

end

end Expansion

/-! ## Reduction -/

namespace Reduction

def Event.renumber (σ : Int → Int) : Event → Event
  | .alpha root binder fresh old => .alpha (root.renumber σ) (binder.renumber σ) fresh old
  | .beta root arg fn => .beta (root.renumber σ) (arg.renumber σ) (fn.renumber σ)
  | .free old fresh => .free old fresh

theorem Event.inside_renumber {σ : Int → Int} {wrap wrap' : Term → Term}
    (same : Commutes σ wrap wrap') (event : Event) :
    (event.renumber σ).inside wrap' = (event.inside wrap).renumber σ := by
  cases event with
  | alpha root binder fresh old => simp only [renumber, inside, same root]
  | beta root arg fn => simp only [renumber, inside, same root]
  | free old fresh => rfl

namespace Run

def renumber (σ : Int → Int) (r : Run) : Run :=
  ⟨renumberResult (Stop.renumber σ) σ r.result, r.events.map (Event.renumber σ), r.counters⟩

variable {σ : Int → Int}

theorem inside_renumber {wrap wrap' : Term → Term} (same : Commutes σ wrap wrap') (r : Run) :
    (r.renumber σ).inside wrap' = (r.inside wrap).renumber σ := by
  obtain ⟨result, events, counters⟩ := r
  have steps : Event.inside wrap' ∘ Event.renumber σ = Event.renumber σ ∘ Event.inside wrap :=
    funext fun event => Event.inside_renumber same event
  cases result with
  | ok t => simp [Run.renumber, Run.inside, renumberResult, steps]
  | error s =>
      simp [Run.renumber, Run.inside, renumberResult, Stop.inside, Stop.renumber, steps,
        same s.reached]

theorem map_renumber {f f' : Term → Term} (same : Commutes σ f f') (r : Run) :
    (r.renumber σ).map f' = (r.map f).renumber σ := by
  obtain ⟨result, events, counters⟩ := r
  cases result with
  | ok t => simp [Run.renumber, Run.map, renumberResult, Except.map, same t]
  | error s => rfl

theorem andThen_renumber {next next' : Term → Counters → Run} (r : Run)
    (same : ∀ t, next' (t.renumber σ) r.counters = (next t r.counters).renumber σ) :
    (r.renumber σ).andThen next' = (r.andThen next).renumber σ := by
  obtain ⟨result, events, counters⟩ := r
  cases result with
  | ok t => simp [Run.renumber, Run.andThen, renumberResult, same]
  | error s => rfl

theorem toExcept_renumber (r : Run) :
    (r.renumber σ).toExcept = renumberResult (Error.renumber σ) σ r.toExcept :=
  mapError_renumberResult σ .hole r.result

end Run

/-! The numbers handed out are below zero, so that they are not replaced. -/

section
variable {σ : Int → Int} (renumbering : Renumbering σ)
include renumbering

theorem renameBinder_renumber {wrap wrap' : Term → Term} (same : Commutes σ wrap wrap')
    (path : Path) (body : Term) {c : Counters} (numbers : c.lastId ≤ 0) :
    renameBinder wrap' path (body.renumber σ) c = (renameBinder wrap path body c).renumber σ := by
  have number : σ (c.lastId - 1) = c.lastId - 1 := renumbering.nonpos _ (by omega)
  have moved : ∀ fresh, (body.renumber σ).modify (Term.rename fresh (c.lastId - 1)) path =
      (body.modify (Term.rename fresh (c.lastId - 1)) path).renumber σ := by
    intro fresh
    apply modify_renumber
    intro t
    have renamed := rename_renumber renumbering fresh (c.lastId - 1) t
    rwa [number] at renamed
  simp only [renameBinder, at?_renumber, moved, same _]
  cases body.at? path with
  | none => rfl
  | some node => cases node <;> rfl

theorem freshen_renumber {wrap wrap' : Term → Term} (same : Commutes σ wrap wrap')
    (paths : List Path) (body : Term) {c : Counters} (numbers : c.lastId ≤ 0) :
    freshen wrap' paths (body.renumber σ) c = (freshen wrap paths body c).renumber σ := by
  induction paths generalizing body c with
  | nil => rfl
  | cons path paths ih =>
      have lower : (renameBinder wrap path body c).counters.lastId ≤ 0 := by
        unfold renameBinder
        split
        · show c.lastId - 1 ≤ 0
          omega
        · exact numbers
      rw [freshen, freshen, renameBinder_renumber renumbering same path body numbers,
        Run.andThen_renumber]
      exact fun t => ih t lower

theorem contract_renumber (name : String) (id : Int) (body arg : Term) {c : Counters}
    (numbers : c.lastId ≤ 0) :
    contract name (σ id) (body.renumber σ) (arg.renumber σ) c =
      (contract name id body arg c).renumber σ := by
  have around : Commutes σ (fun b => .app (.abs name id b) arg)
      (fun b => .app (.abs name (σ id) b) (arg.renumber σ)) := fun _ => rfl
  rw [contract, contract, names_renumber, bindersNamed_renumber,
    freshen_renumber renumbering around _ body numbers, Run.andThen_renumber]
  intro body
  simp only [substitute_renumber renumbering]
  rfl

theorem visit_renumber (o : Options) (room depth : Nat) (t : Term) {c : Counters}
    (numbers : c.lastId ≤ 0) :
    visit o room depth (t.renumber σ) c = (visit o room depth t c).renumber σ := by
  induction room generalizing depth t c with
  | zero => rfl
  | succ room ih =>
      have lower : ∀ depth t {c : Counters}, c.lastId ≤ 0 →
          (visit o room depth t c).counters.lastId ≤ 0 := fun depth t c numbers =>
        Int.le_trans (visit_derives o room depth t c).before.lastId numbers
      cases t with
      | hole => rfl
      | var name id renamed =>
          have free : (σ id == 0) = (id == 0) := by
            rw [Bool.eq_iff_iff, beq_iff_eq, beq_iff_eq, renumbering.eq_zero_iff]
          simp only [Term.renumber, visit, free]
          split
          · simp [renameFree, Run.renumber, renumberResult, Term.renumber, Event.renumber,
              renumbering.zero]
          · rfl
      | abs name id body =>
          simp only [Term.renumber, visit]
          rw [ih _ _ numbers, Run.inside_renumber (commutes_body σ name id),
            Run.map_renumber (commutes_body σ name id)]
      | app fn arg =>
          have fnNumbers := lower (depth + 1) fn numbers
          simp only [Term.renumber, visit]
          rw [ih _ _ numbers, Run.inside_renumber (commutes_fn σ arg), Run.andThen_renumber]
          intro fn'
          have argNumbers := lower (depth + 1) arg fnNumbers
          rw [Run.counters_inside, ih _ _ fnNumbers, Run.inside_renumber (commutes_arg σ fn'),
            Run.andThen_renumber]
          intro arg'
          cases fn' with
          | abs name id body =>
              simp only [Term.renumber, Run.counters_inside]
              rw [contract_renumber renumbering name id body arg' argNumbers,
                Run.andThen_renumber]
              intro reduct
              apply ih
              obtain ⟨_, _, derivation⟩ := contract_derives o name id body arg'
                (visit o room (depth + 1) arg (visit o room (depth + 1) fn c).counters).counters
              exact Int.le_trans derivation.before.lastId argNumbers
          | _ => rfl

theorem run_renumber (o : Options) (t : Term) : run o {} (t.renumber σ) = (run o {} t).renumber σ :=
  visit_renumber renumbering o (o.bound + 1) 0 t (Int.le_refl 0)

end

end Reduction

end UntypedLambda
