import UntypedLambda.Proofs.Log.Notes
import UntypedLambda.Proofs.Reduction.Derivation

/-! # The order of steps

Binders are renamed only to make way for a contraction, which follows at once.  Free variables
are renamed one by one, between contractions.  So the steps of a run come in blocks, and a run
that stops does so between two of them.

Main statement: `blocks_visit`. -/
set_option autoImplicit false

namespace UntypedLambda.Reduction

/-- A block is the renaming of a free variable, or a contraction behind the renamings of
binders that it needs. -/
inductive Blocks : List Entry.Kind → Prop where
  | nil : Blocks []
  | free {rest : List Entry.Kind} (more : Blocks rest) : Blocks (.freeRename :: rest)
  | contraction (renamings : Nat) {rest : List Entry.Kind} (more : Blocks rest) :
      Blocks (List.replicate renamings .alpha ++ .beta :: rest)

theorem Blocks.append {front back : List Entry.Kind} (first : Blocks front)
    (second : Blocks back) : Blocks (front ++ back) := by
  induction first with
  | nil => exact second
  | free _ ih => exact .free ih
  | contraction renamings _ ih =>
      rw [List.append_assoc, List.cons_append]
      exact .contraction renamings ih

def Run.kinds (r : Run) : List Entry.Kind := r.events.map Event.kind

namespace Run

theorem kinds_inside (wrap : Term → Term) (r : Run) : (r.inside wrap).kinds = r.kinds := by
  rw [kinds, inside, List.map_map, kinds]
  refine List.map_congr_left fun e _ => ?_
  cases e <;> rfl

theorem kinds_map (f : Term → Term) (r : Run) : (r.map f).kinds = r.kinds := rfl

theorem blocks_andThen {r : Run} {next : Term → Counters → Run} (first : Blocks r.kinds)
    (later : ∀ t c, Blocks (next t c).kinds) : Blocks (r.andThen next).kinds := by
  unfold andThen
  cases r.result with
  | error s => exact first
  | ok t =>
      rw [kinds, List.map_append]
      exact first.append (later t r.counters)

end Run

theorem Renames.kinds {wrap : Term → Term} {t u : Term} {c c' : Counters} {events : List Event}
    (steps : Renames wrap t c events u c') :
    events.map Event.kind = List.replicate events.length .alpha := by
  induction steps with
  | nil t c => rfl
  | cons binder old step rest ih =>
      rw [List.map_cons, ih, List.length_cons, List.replicate_succ]
      rfl

theorem blocks_contract (name : String) (id : Int) (body arg : Term) (c : Counters) :
    Blocks (contract name id body arg c).kinds := by
  obtain ⟨u, events, c', renames, _, run⟩ := contract_eq name id body arg c
  rw [run, Run.kinds, List.map_append, renames.kinds]
  exact .contraction events.length .nil

/-- However a reduction ends, its steps come in whole blocks. -/
theorem blocks_visit (o : Options) (room depth : Nat) (t : Term) (c : Counters) :
    Blocks (visit o room depth t c).kinds := by
  induction room generalizing depth t c with
  | zero => exact .nil
  | succ room ih =>
      cases t with
      | hole => exact .nil
      | var name id renamed =>
          simp only [visit]
          split
          · exact .free .nil
          · exact .nil
      | abs name id body =>
          rw [visit, Run.kinds_map, Run.kinds_inside]
          exact ih (depth + 1) body c
      | app fn arg =>
          rw [visit_app]
          refine Run.blocks_andThen ?_ fun fn c => Run.blocks_andThen ?_ fun arg c => ?_
          · rw [Run.kinds_inside]
            exact ih (depth + 1) _ _
          · rw [Run.kinds_inside]
            exact ih (depth + 1) _ _
          · unfold finish
            split
            · exact Run.blocks_andThen (blocks_contract _ _ _ _ c) (ih (depth + 1))
            · exact .nil

end UntypedLambda.Reduction
