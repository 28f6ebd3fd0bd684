import UntypedLambda.Proofs.Expansion.Dependency
import UntypedLambda.Proofs.Reduction.Soundness

/-! # Answers do not depend on the bound

The room that is left decides whether a run is stopped and nothing else.  A run that has not
been stopped is therefore the same with more room, step by step: it records the same, hands out
the same names and numbers, and stands at whatever depth.

Main statement: `run_eq_of_bound_le`. -/
set_option autoImplicit false

namespace UntypedLambda

/-! ## Expansion -/

namespace Expansion

/-- An expansion that succeeds is the same with more room, at every depth. -/
theorem visit_eq_of_ok {definitions : String → Option Term} {room room' : Nat}
    (le : room ≤ room') {depth : Nat} {t u : Term}
    (success : (visit definitions room depth t).result = .ok u) (depth' : Nat) :
    visit definitions room' depth' t = visit definitions room depth t := by
  induction room generalizing room' depth depth' t u with
  | zero => cases success
  | succ room ih =>
      obtain ⟨room', rfl⟩ : ∃ k, room' = k + 1 := ⟨room' - 1, by omega⟩
      have fewer : room ≤ room' := Nat.le_of_succ_le_succ le
      cases t with
      | hole => rfl
      | var name id renamed =>
          simp only [visit] at success ⊢
          split at success
          · rfl
          · rw [ih fewer (Run.inside_eq_ok.mp success) (depth' + 1)]
      | abs name id body =>
          simp only [visit, Run.map_eq_ok, Run.inside_eq_ok] at success
          obtain ⟨v, inside, _⟩ := success
          simp only [visit, ih fewer inside (depth' + 1)]
      | app fn arg =>
          simp only [visit, Run.andThen_eq_ok, Run.map_eq_ok, Run.inside_eq_ok] at success
          obtain ⟨fn', left, arg', right, _⟩ := success
          simp only [visit, ih fewer left (depth' + 1), ih fewer right (depth' + 1)]

end Expansion

/-! ## Reduction -/

namespace Reduction

/-- A reduction that succeeds is the same with more room, at every depth. -/
theorem visit_eq_of_ok {o o' : Options} (mode : o'.renameFree = o.renameFree)
    {room room' : Nat} (le : room ≤ room') {depth : Nat} {t u : Term} {c : Counters}
    (success : (visit o room depth t c).result = .ok u) (depth' : Nat) :
    visit o' room' depth' t c = visit o room depth t c := by
  induction room generalizing room' depth depth' t u c with
  | zero => cases success
  | succ room ih =>
      obtain ⟨room', rfl⟩ : ∃ k, room' = k + 1 := ⟨room' - 1, by omega⟩
      have fewer : room ≤ room' := Nat.le_of_succ_le_succ le
      cases t with
      | hole => rfl
      | var name id renamed => simp only [visit, mode]
      | abs name id body =>
          simp only [visit, Run.map_inside_eq_andThen, Run.andThen_eq_ok, Run.inside_eq_ok]
            at success
          obtain ⟨v, inside, _⟩ := success
          simp only [visit, ih fewer inside (depth' + 1)]
      | app fn arg =>
          simp only [visit, Run.andThen_eq_ok, Run.inside_eq_ok, Run.counters_inside] at success
          obtain ⟨fn', left, arg', right, ended⟩ := success
          simp only [visit, ih fewer left (depth' + 1)]
          apply Run.andThen_congr
          intro f isFn
          cases left.symm.trans (Run.inside_eq_ok.mp isFn)
          rw [Run.counters_inside, ih fewer right (depth' + 1)]
          apply Run.andThen_congr
          intro a isArg
          cases right.symm.trans (Run.inside_eq_ok.mp isArg)
          cases fn' with
          | abs name id body =>
              apply Run.andThen_congr
              intro v contracted
              obtain ⟨v', again, reduced⟩ := Run.andThen_eq_ok.mp ended
              cases contracted.symm.trans again
              exact ih fewer reduced (depth' + 1)
          | _ => rfl

end Reduction

/-! ## Both -/

/-- With a larger bound, a reduction that succeeds gives the same term, steps and counters, and
an expansion that succeeds the same term and unfoldings.  Where nothing is absent, failure is
always one of depth, and the depth that it tells is one more than the bound. -/
theorem run_eq_of_bound_le {bound bound' : Nat} (le : bound ≤ bound') (renameFree : Bool)
    (c : Reduction.Counters) (definitions : String → Option Term) (t : Term) :
    (∀ u, (Reduction.run ⟨renameFree, bound⟩ c t).result = .ok u →
      Reduction.run ⟨renameFree, bound'⟩ c t = Reduction.run ⟨renameFree, bound⟩ c t) ∧
    (∀ u, (Expansion.run definitions bound t).result = .ok u →
      Expansion.run definitions bound' t = Expansion.run definitions bound t) ∧
    (t.HoleFree → ∀ e, (Reduction.run ⟨renameFree, bound⟩ c t).toExcept = .error e →
      ∃ visited reached, e = .depth ⟨visited, bound + 1, reached⟩) ∧
    (t.HoleFree → (∀ name d, definitions name = some d → d.HoleFree) →
      ∀ e, (Expansion.run definitions bound t).toExcept = .error e →
        ∃ visited reached, e = .depth ⟨visited, bound + 1, reached⟩) := by
  have room : bound + 1 ≤ bound' + 1 := Nat.succ_le_succ le
  refine ⟨?_, ?_, ?_, ?_⟩
  · intro u success
    have mode : (⟨renameFree, bound'⟩ : Reduction.Options).renameFree =
        (⟨renameFree, bound⟩ : Reduction.Options).renameFree := rfl
    exact Reduction.visit_eq_of_ok mode room success 0
  · intro u success
    exact Expansion.visit_eq_of_ok room success 0
  · intro whole e failure
    exact Reduction.depthError_of_run whole failure
  · intro whole definitionsWhole e failure
    exact Expansion.depthError_of_run definitionsWhole whole failure

/-- `(λx. λy. x y) y`, for which a bound of four is enough and one of three is not. -/
def capturing : Term :=
  .app (.abs "x" 1 (.abs "y" 2 (.app (.var "x" 1 false) (.var "y" 2 false)))) (.var "y" 0 false)

theorem run_eq_of_bound_le_capturing :
    (Reduction.run ⟨false, 9⟩ { names := 5, lastId := -2 } capturing).result =
        .ok (.abs "X5" (-3) (.app (.var "y" 0 false) (.var "X5" (-3) false))) ∧
      (Expansion.run (fun name => if name = "y" then some (.var "z" 0 false) else none) 9
        capturing).unfoldings = [⟨"y", .var "z" 0 false⟩] ∧
      (∃ visited reached, (Reduction.run ⟨false, 3⟩ {} capturing).toExcept =
        .error (.depth ⟨visited, 4, reached⟩)) ∧
      ∃ visited reached, (Expansion.run (fun _ => some (.var "y" 0 false)) 3 capturing).toExcept =
        .error (.depth ⟨visited, 4, reached⟩) := by
  have reduced : (Reduction.run ⟨false, 4⟩ { names := 5, lastId := -2 } capturing).result =
      .ok (.abs "X5" (-3) (.app (.var "y" 0 false) (.var "X5" (-3) false))) := rfl
  obtain ⟨larger, _⟩ := run_eq_of_bound_le (show 4 ≤ 9 by decide) false { names := 5, lastId := -2 }
    (fun _ => none) capturing
  obtain ⟨_, expanded, _⟩ := run_eq_of_bound_le (show 4 ≤ 9 by decide) false {}
    (fun name => if name = "y" then some (.var "z" 0 false) else none) capturing
  obtain ⟨_, _, reduction, expansion⟩ := run_eq_of_bound_le (Nat.le_refl 3) false {}
    (fun _ => some (.var "y" 0 false)) capturing
  refine ⟨?_, ?_, ?_, ?_⟩
  · rw [larger _ reduced]
    exact reduced
  · rw [expanded _ rfl]
    rfl
  · obtain ⟨visited, reached, same⟩ := reduction (by decide) _ rfl
    exact ⟨visited, reached, congrArg Except.error same⟩
  · obtain ⟨visited, reached, same⟩ := expansion (by decide) (by rintro _ _ ⟨⟩; trivial) _ rfl
    exact ⟨visited, reached, congrArg Except.error same⟩

end UntypedLambda
