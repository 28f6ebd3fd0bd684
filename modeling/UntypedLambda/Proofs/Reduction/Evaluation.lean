import UntypedLambda.Proofs.Nameless.Normalization
import UntypedLambda.Proofs.Reduction.FreeNames
import UntypedLambda.Proofs.Reduction.Soundness

/-! # Reduction is evaluation

A reduction that meets no free variable to be renamed is determined by the reading of the term and
by its room: both say whether it succeeds, what the result reads, and how many contractions are
done, also if it is stopped.  Names and numbers, and the counters they are taken from, have no
part in it.  So it has evaluated the reading if it succeeds; and a term whose reading has a value
is reduced to it as soon as there is room.

Main statements: `reading_visit`, `evaluates_of_visit`, `exists_visit_of_evaluates`. -/
set_option autoImplicit false

namespace UntypedLambda.Reduction

open Nameless

/-! ## Terms that a reducer can go on with -/

/-- The reducer may number new binders of the term from `c` on. -/
structure Numbers (c : Counters) (t : Term) : Prop where
  nonpos : c.lastId ≤ 0
  numbered : t.Numbered c.lastId

namespace Numbers

variable {c c' : Counters} {t u f a : Term}

theorem body {name : String} {id : Int} (numbers : Numbers c (.abs name id t)) : Numbers c t :=
  ⟨numbers.nonpos, numbers.numbered.body⟩

theorem fn (numbers : Numbers c (.app f a)) : Numbers c f :=
  ⟨numbers.nonpos, numbers.numbered.fn⟩

theorem derived {o : Options} {events : List Event} (numbers : Numbers c t)
    (derivation : Derivation o t c events u c') : Numbers c' u :=
  ⟨Int.le_trans derivation.before.lastId numbers.nonpos,
    derivation.numbered numbers.nonpos numbers.numbered⟩

/-- The argument is visited with what the function has left of the counters. -/
theorem arg {o : Options} {room depth : Nat} (numbers : Numbers c (.app f a))
    (success : (visit o room depth f c).result = .ok u) :
    Numbers (visit o room depth f c).counters a := by
  have left := numbers.derived (.fn a (derivation_of_visit success))
  exact ⟨left.nonpos, left.numbered.arg⟩

theorem app {o : Options} {room depth : Nat} {f' a' : Term} (numbers : Numbers c (.app f a))
    (function : (visit o room depth f c).result = .ok f')
    (argument : (visit o room depth a (visit o room depth f c).counters).result = .ok a') :
    Numbers (visit o room depth a (visit o room depth f c).counters).counters (.app f' a') := by
  have left := numbers.derived (.fn a (derivation_of_visit function))
  exact left.derived (.arg f' (derivation_of_visit argument))

end Numbers

/-! ## A contraction -/

theorem Renames.idReading_eq {wrap : Term → Term} {t u : Term} {c c' : Counters}
    {events : List Event} (steps : Renames wrap t c events u c') (numbers : Numbers c t)
    (scope : List Int) : u.idReading scope = t.idReading scope := by
  induction steps with
  | nil t c => rfl
  | @cons t u v c c' events binder old step rest ih =>
      obtain ⟨nonpos, numbered⟩ := numbers
      have lower : c.afterAlpha.lastId ≤ 0 :=
        Int.le_trans (Counters.Before.afterAlpha c).lastId nonpos
      rw [ih ⟨lower, numbered.renamed nonpos step⟩]
      exact idReading_renamed step nonpos numbered scope

/-- A contraction always succeeds, it brings no free variable without its mark, and on the readings
it is one. -/
theorem contract_reads {name : String} {id : Int} {body arg : Term} {c : Counters}
    (numbers : Numbers c (.app (.abs name id body) arg)) :
    ∃ u, (contract name id body arg c).result = .ok u ∧
      Numbers (contract name id body arg c).counters u ∧
      ((Term.app (.abs name id body) arg).AllVars Settled → u.AllVars Settled) ∧
      ∀ scope, u.idReading scope =
        (body.idReading (id :: scope)).instantiate (arg.idReading scope) := by
  obtain ⟨u, events, c', renames, apart, run⟩ := contract_eq name id body arg c
  have bound : id ≠ 0 := numbers.fn.numbered.binder_ne_zero (name, id) (by simp [Term.labelsOf])
  have derivation : Derivation {} _ c _ _ _ := .contract renames apart
  rw [run]
  refine ⟨_, rfl, numbers.derived derivation,
    derivation.settled numbers.nonpos numbers.numbered, fun scope => ?_⟩
  rw [Term.idReading_substitute bound (apart.id_ne renames numbers.nonpos numbers.numbered) scope,
    renames.idReading_eq numbers.fn.body]

/-! ## What a run reads -/

/-- No free variable of the term is going to be renamed. -/
def Quiet (o : Options) (t : Term) : Prop := o.renameFree = true → t.AllVars Settled

theorem Quiet.of_off {o : Options} {t : Term} (off : o.renameFree = false) : Quiet o t := by
  intro on
  rw [off] at on
  cases on

/-- What the result of a run reads, if it succeeds, and the contractions counted after it. -/
def Run.reading (scope : List Int) (r : Run) : Option Nameless × Nat :=
  (r.result.toOption.map (Term.idReading scope), r.counters.betas)

namespace Run

variable {scope : List Int} {r : Run} {next : Term → Counters → Run} {s : Stop} {u : Term}

theorem reading_done (t : Term) (c : Counters) :
    (done t c).reading scope = (some (t.idReading scope), c.betas) :=
  rfl

theorem reading_of_ok (success : r.result = .ok u) :
    r.reading scope = (some (u.idReading scope), r.counters.betas) := by
  rw [reading, success]
  rfl

theorem reading_of_error (stop : r.result = .error s) :
    r.reading scope = (none, r.counters.betas) := by
  rw [reading, stop]
  rfl

theorem reading_eq_some {n : Nameless} :
    (r.reading scope).1 = some n ↔ ∃ u, r.result = .ok u ∧ u.idReading scope = n := by
  obtain ⟨result, events, counters⟩ := r
  cases result <;> simp [reading, Except.toOption]

theorem reading_andThen_of_ok (success : r.result = .ok u) :
    (r.andThen next).reading scope = (next u r.counters).reading scope := by
  rw [andThen, success]
  rfl

theorem reading_inside_andThen_of_ok (wrap : Term → Term) (success : r.result = .ok u) :
    ((r.inside wrap).andThen next).reading scope = (next u r.counters).reading scope :=
  reading_andThen_of_ok (inside_eq_ok.mpr success)

theorem reading_inside_andThen_of_error (wrap : Term → Term) (stop : r.result = .error s) :
    ((r.inside wrap).andThen next).reading scope = (none, r.counters.betas) := by
  rw [andThen, inside, stop]
  rfl

theorem reading_abs (name : String) (id : Int) :
    ((r.inside (.abs name id)).map (.abs name id)).reading scope =
      ((r.reading (id :: scope)).1.map .abs, (r.reading (id :: scope)).2) := by
  obtain ⟨result, events, counters⟩ := r
  cases result <;> rfl

end Run

/-! ## Leaves -/

theorem isAbs_idReading (t : Term) (scope : List Int) : (t.idReading scope).isAbs = t.isAbs := by
  cases t with
  | var name id renamed =>
      simp only [Term.idReading, Term.idPlace, place]
      split
      · rfl
      · split <;> rfl
  | _ => rfl

theorem visit_var_eq_done {o : Options} {room depth : Nat} {name : String} {id : Int}
    {renamed : Bool} {c : Counters} (quiet : Quiet o (.var name id renamed)) :
    visit o (room + 1) depth (.var name id renamed) c = .done (.var name id renamed) c := by
  have kept : ¬ (o.renameFree && id == 0 && !renamed) = true := by
    simp only [Bool.and_eq_true, beq_iff_eq, Bool.not_eq_true']
    rintro ⟨⟨on, free⟩, mark⟩
    have settled : renamed = true := quiet on free
    rw [mark] at settled
    cases settled
  rw [visit, if_neg kept]

theorem normalize_idPlace (room : Nat) (scope : List Int) (name : String) (id : Int)
    (betas : Nat) : (Term.idPlace scope name id).normalize (room + 1) betas =
      (some (Term.idPlace scope name id), betas) := by
  unfold Term.idPlace Nameless.place
  split
  · rfl
  · split <;> rfl

/-! ## Applications -/

theorem Renames.betas_eq {wrap : Term → Term} {t u : Term} {c c' : Counters}
    {events : List Event} (steps : Renames wrap t c events u c') : c'.betas = c.betas := by
  induction steps with
  | nil t c => rfl
  | cons binder old step rest ih => exact ih

section Applications
variable {o : Options} {room depth : Nat} {c : Counters} {scope : List Int}

/-- Every term that a reducer can go on with is reduced as its reading is evaluated. -/
def Follows (o : Options) (room : Nat) : Prop :=
  ∀ (depth : Nat) (t : Term) (c : Counters) (scope : List Int), Numbers c t → Quiet o t →
    (visit o room depth t c).reading scope = (t.idReading scope).normalize room c.betas

/-- A contraction, and then the reduction of what it leaves. -/
theorem Follows.contract (follows : Follows o room) {name : String} {id : Int} {body arg : Term}
    (numbers : Numbers c (.app (.abs name id body) arg))
    (quiet : Quiet o (.app (.abs name id body) arg)) :
    ((contract name id body arg c).andThen (visit o room depth)).reading scope =
      ((body.idReading (id :: scope)).instantiate (arg.idReading scope)).normalize room
        (c.betas + 1) := by
  obtain ⟨v, contracted, left, settles, reading⟩ := contract_reads numbers
  have counted : (Reduction.contract name id body arg c).counters.betas = c.betas + 1 := by
    obtain ⟨_, _, c', renames, _, run⟩ := contract_eq name id body arg c
    rw [run]
    exact congrArg (· + 1) renames.betas_eq
  rw [Run.reading_andThen_of_ok contracted, follows _ v _ _ left fun on => settles (quiet on),
    reading, counted]

/-- An application is reduced as its reading is evaluated, if its parts are. -/
theorem Follows.app (follows : Follows o room) {fn arg : Term} {n m : Nameless}
    (numbers : Numbers c (.app fn arg))
    (function : (visit o room (depth + 1) fn c).reading scope = n.normalize room c.betas)
    (argument : ∀ f, (visit o room (depth + 1) fn c).result = .ok f →
      (visit o room (depth + 1) arg (visit o room (depth + 1) fn c).counters).reading scope =
        m.normalize room (visit o room (depth + 1) fn c).counters.betas) :
    (visit o (room + 1) depth (.app fn arg) c).reading scope =
      (Nameless.app n m).normalize (room + 1) c.betas := by
  rw [visit, Nameless.normalize, ← function]
  cases left : (visit o room (depth + 1) fn c).result with
  | error s =>
      rw [Run.reading_of_error left, Run.reading_inside_andThen_of_error _ left]
  | ok f =>
      rw [Run.reading_of_ok left, Run.reading_inside_andThen_of_ok _ left]
      simp only [← argument f left]
      cases right : (visit o room (depth + 1) arg
          (visit o room (depth + 1) fn c).counters).result with
      | error s =>
          rw [Run.reading_of_error right, Run.reading_inside_andThen_of_error _ right]
      | ok a =>
          rw [Run.reading_of_ok right, Run.reading_inside_andThen_of_ok _ right]
          have parts := numbers.app left right
          have quiet : Quiet o (.app f a) :=
            fun on => ⟨settled_of_visit on left, settled_of_visit on right⟩
          cases f with
          | abs name id body => exact follows.contract parts quiet
          | hole => exact parts.numbered.holeFree.1.elim
          | app f f' => rfl
          | var name id renamed =>
              have stuck := isAbs_idReading (.var name id renamed) scope
              simp only [Run.reading_done, Term.idReading] at stuck ⊢
              cases reading : Term.idPlace scope name id with
              | abs body =>
                  rw [reading] at stuck
                  cases stuck
              | _ => rfl

/-- A reduction without renaming does what evaluation does with the reading. -/
theorem reading_visit (o : Options) (room : Nat) : Follows o room := by
  induction room with
  | zero => exact fun _ _ _ _ _ _ => rfl
  | succ room ih =>
      intro depth t c scope numbers quiet
      cases t with
      | hole => exact numbers.numbered.holeFree.elim
      | var name id renamed =>
          rw [visit_var_eq_done quiet, Term.idReading, normalize_idPlace]
          rfl
      | abs name id body =>
          have below := ih (depth + 1) body c (id :: scope) numbers.body quiet
          rw [visit, Run.reading_abs, below]
          rfl
      | app fn arg =>
          refine ih.app numbers (ih _ fn c scope numbers.fn fun on => (quiet on).1) ?_
          intro f left
          exact ih _ arg _ scope (numbers.arg left) fun on => (quiet on).2

end Applications

/-! ## Values -/

/-- What a reduction comes to is what the reading is evaluated to. -/
theorem evaluates_of_visit {o : Options} {room depth : Nat} {t u : Term} {c : Counters}
    (numbers : Numbers c t) (quiet : Quiet o t)
    (success : (visit o room depth t c).result = .ok u) (scope : List Int) :
    Evaluates (t.idReading scope) (u.idReading scope) := by
  have followed := reading_visit o room depth t c scope numbers quiet
  rw [Run.reading_of_ok success] at followed
  exact evaluates_of_normalize followed.symm

/-- A term whose reading has a value is reduced to it when there is room, at any depth and from
any counters. -/
theorem exists_visit_of_evaluates {n v : Nameless} (evaluates : Evaluates n v) :
    ∃ enough, ∀ room ≥ enough, ∀ (o : Options) (depth : Nat) (t : Term) (c : Counters)
      (scope : List Int), Numbers c t → Quiet o t → t.idReading scope = n →
      ∃ u, (visit o room depth t c).result = .ok u ∧ u.idReading scope = v := by
  obtain ⟨enough, found⟩ := exists_normalize evaluates
  refine ⟨enough, fun room large o depth t c scope numbers quiet reading => ?_⟩
  obtain ⟨betas, value⟩ := found room large c.betas
  have followed := reading_visit o room depth t c scope numbers quiet
  rw [reading, value] at followed
  exact Run.reading_eq_some.mp (congrArg Prod.fst followed)

/-! ## With and without renaming -/

/-- Where no free variable is left to be renamed, the options make no difference. -/
theorem visit_eq_of_settled (o o' : Options) (room depth : Nat) {t : Term} {c : Counters}
    (numbers : Numbers c t) (settled : t.AllVars Settled) :
    visit o' room depth t c = visit o room depth t c := by
  induction room generalizing depth t c with
  | zero => rfl
  | succ room ih =>
      cases t with
      | hole => rfl
      | var name id renamed =>
          rw [visit_var_eq_done fun _ => settled, visit_var_eq_done fun _ => settled]
      | abs name id body =>
          rw [visit, visit, ih (depth + 1) numbers.body settled]
      | app fn arg =>
          rw [visit_app, visit_app, ih (depth + 1) numbers.fn settled.1]
          apply Run.andThen_congr
          intro f isFn
          have left := Run.inside_eq_ok.mp isFn
          rw [Run.counters_inside, ih (depth + 1) (numbers.arg left) settled.2]
          apply Run.andThen_congr
          intro a isArg
          have right := Run.inside_eq_ok.mp isArg
          rw [Run.counters_inside]
          cases f with
          | abs name id body =>
              apply Run.andThen_congr
              intro v contracted
              have redex : (Term.app (.abs name id body) a).AllVars Settled :=
                ⟨(derivation_of_visit left).settled numbers.nonpos numbers.fn.numbered settled.1,
                  (derivation_of_visit right).settled (numbers.arg left).nonpos
                    (numbers.arg left).numbered settled.2⟩
              obtain ⟨v', contracted', remaining, settles, _⟩ :=
                contract_reads (numbers.app left right)
              cases contracted.symm.trans contracted'
              exact ih (depth + 1) remaining (settles redex)
          | _ => rfl

end UntypedLambda.Reduction
