import UntypedLambda.Proofs.Log.Notes
import UntypedLambda.Proofs.Reduction.Derivation

/-! # Steps are counted

Every step of a derivation is an event, and every event is counted, also when the work stops
early.

Main statement: `run_counts`. -/
set_option autoImplicit false

namespace UntypedLambda.Reduction

/-- How many steps of a kind were counted. -/
def Counters.tally (c : Counters) : Entry.Kind → Nat
  | .alpha => c.alphas
  | .beta => c.betas
  | .freeRename => c.frees
  | _ => 0

/-- How many steps of a kind there are among events. -/
def occurrences (kind : Entry.Kind) (events : List Event) : Nat :=
  events.countP (·.kind == kind)

theorem occurrences_append (kind : Entry.Kind) (events more : List Event) :
    occurrences kind (events ++ more) = occurrences kind events + occurrences kind more :=
  List.countP_append

theorem occurrences_cons (kind : Entry.Kind) (e : Event) (events : List Event) :
    occurrences kind (e :: events) = occurrences kind events + if e.kind == kind then 1 else 0 :=
  List.countP_cons

theorem occurrences_inside (kind : Entry.Kind) (wrap : Term → Term) (events : List Event) :
    occurrences kind (events.map (Event.inside wrap)) = occurrences kind events := by
  have same : ∀ e : Event, (e.inside wrap).kind = e.kind := fun e => by cases e <;> rfl
  rw [occurrences, List.countP_map]
  refine List.countP_congr fun e _ => ?_
  rw [Function.comp_apply, same]

section
variable {o : Options} {t u : Term} {c c' : Counters} {events : List Event}

theorem Renames.counts {wrap : Term → Term} (steps : Renames wrap t c events u c')
    (kind : Entry.Kind) : c'.tally kind = c.tally kind + occurrences kind events := by
  induction steps with
  | nil t c => rfl
  | @cons t u v c c' events binder old step rest ih =>
      have first : c.afterAlpha.tally kind =
          c.tally kind + if Entry.Kind.alpha == kind then 1 else 0 := by
        cases kind <;> rfl
      rw [ih, first, occurrences_cons, Event.kind]
      omega

theorem Derivation.counts (derivation : Derivation o t c events u c') (kind : Entry.Kind) :
    c'.tally kind = c.tally kind + occurrences kind events := by
  induction derivation with
  | refl t c => rfl
  | trans first second ih ih' => rw [ih', ih, occurrences_append, Nat.add_assoc]
  | body name id inside ih => rw [ih, occurrences_inside]
  | fn arg inside ih => rw [ih, occurrences_inside]
  | arg fn inside ih => rw [ih, occurrences_inside]
  | free on name c => cases kind <;> rfl
  | rename steps => exact steps.counts kind
  | @contract name id t u arg c c' events steps apart =>
      have renamed := steps.counts kind
      rw [occurrences_append, ← Nat.add_assoc, ← renamed]
      cases kind <;> rfl

end

theorem run_counts (o : Options) (c : Counters) (t : Term) (kind : Entry.Kind) :
    (run o c t).counters.tally kind = c.tally kind + occurrences kind (run o c t).events :=
  (run_derives o c t).counts kind

end UntypedLambda.Reduction
