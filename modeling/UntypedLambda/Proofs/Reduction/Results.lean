import UntypedLambda.Proofs.Reduction.Derivation

/-! # What a reduction ends with

A reduction that ends has come to every node of its result and left it as it was there.  So
nothing is absent from the result, no redex is left in it, no free variable is still to be
renamed, and the levels that the reduction had are enough for it, though it spent them on other
terms.  A second reduction finds just this and does nothing.

None of it depends on the numbers of binders and variables.

Main statements: `finished_of_visit`, `run_idempotent`. -/
set_option autoImplicit false

namespace UntypedLambda.Reduction

/-- There is nothing to do in a term, and `room` levels are enough to find that out. -/
inductive Finished (renameFree : Bool) : (room : Nat) → Term → Prop where
  | var {room : Nat} {name : String} {id : Int} {renamed : Bool}
      (settled : renameFree = true → id = 0 → renamed = true) :
      Finished renameFree (room + 1) (.var name id renamed)
  | abs {room : Nat} {name : String} {id : Int} {body : Term}
      (inside : Finished renameFree room body) :
      Finished renameFree (room + 1) (.abs name id body)
  | app {room : Nat} {fn arg : Term} (stuck : fn.isAbs = false)
      (left : Finished renameFree room fn) (right : Finished renameFree room arg) :
      Finished renameFree (room + 1) (.app fn arg)

namespace Finished

variable {renameFree : Bool} {room room' : Nat} {t : Term}

/-! ## What finished terms are like -/

theorem holeFree (finished : Finished renameFree room t) : t.HoleFree := by
  induction finished with
  | var settled => trivial
  | abs inside ih => exact ih
  | app stuck left right ihf iha => exact ⟨ihf, iha⟩

theorem redexFree (finished : Finished renameFree room t) : t.RedexFree := by
  induction finished with
  | var settled => trivial
  | abs inside ih => exact ih
  | app stuck left right ihf iha => exact ⟨stuck, ihf, iha⟩

theorem height_lt (finished : Finished renameFree room t) : t.height < room := by
  induction finished with
  | var settled => exact Nat.succ_pos _
  | abs inside ih => exact Nat.succ_lt_succ ih
  | app stuck left right ihf iha => exact Nat.succ_lt_succ (Nat.max_lt.mpr ⟨ihf, iha⟩)

theorem succ (finished : Finished renameFree room t) : Finished renameFree (room + 1) t := by
  induction finished with
  | var settled => exact .var settled
  | abs inside ih => exact .abs ih
  | app stuck left right ihf iha => exact .app stuck ihf iha

theorem mono (finished : Finished renameFree room t) (le : room ≤ room') :
    Finished renameFree room' t := by
  induction le with
  | refl => exact finished
  | step _ ih => exact ih.succ

/-! ## Nothing to do -/

/-- A finished term is not changed, and nothing is recorded, handed out or counted. -/
theorem visit_eq_done {o : Options} (finished : Finished o.renameFree room t) (depth : Nat)
    (c : Counters) : visit o room depth t c = .done t c := by
  induction finished generalizing depth with
  | @var room name id renamed settled =>
      have kept : (o.renameFree && id == 0 && !renamed) = false := by
        rw [← Bool.not_eq_true]
        intro fresh
        simp only [Bool.and_eq_true, beq_iff_eq, Bool.not_eq_true'] at fresh
        obtain ⟨⟨on, free⟩, unmarked⟩ := fresh
        cases (settled on free).symm.trans unmarked
      rw [visit, kept]
      rfl
  | abs inside ih =>
      rw [visit, ih]
      rfl
  | @app room fn arg stuck left right ihf iha =>
      rw [visit_app, ihf]
      simp only [Run.done, Run.inside, Run.andThen, Except.mapError_ok, iha]
      cases fn with
      | abs name id body => cases stuck
      | _ => rfl

end Finished

/-! ## Results -/

/-- Whatever the term given was, a reduction that ends leaves nothing to do. -/
theorem finished_of_visit {o : Options} {room depth : Nat} {t u : Term} {c : Counters}
    (success : (visit o room depth t c).result = .ok u) :
    Finished o.renameFree room u := by
  induction room generalizing depth t u c with
  | zero => cases success
  | succ room ih =>
      cases t with
      | hole => cases success
      | var name id renamed =>
          simp only [visit] at success
          split at success
          · cases success
            exact .var fun _ _ => rfl
          · rename_i kept
            cases success
            refine .var fun on free => ?_
            simpa [on, free] using kept
      | abs name id body =>
          simp only [visit, Run.map_inside_eq_andThen, Run.andThen_eq_ok, Run.inside_eq_ok]
            at success
          obtain ⟨v, inside, success⟩ := success
          cases success
          exact .abs (ih inside)
      | app fn arg =>
          obtain ⟨f, a, _, _, _, _, left, _, right, _, ⟨stuck, rfl⟩ | ⟨_, _, _, _, rest⟩⟩ :=
            visit_app_cases success
          · exact .app stuck (ih left) (ih right)
          -- the result is that of the contracted term, which had one level less
          · exact (ih rest).succ

/-- Reducing a result again, with at least the same bound and whatever has been handed out since,
gives the result and does nothing. -/
theorem run_idempotent {o o' : Options} (mode : o'.renameFree = o.renameFree)
    (le : o.bound ≤ o'.bound) {c : Counters} {t u : Term} (success : (run o c t).result = .ok u)
    (c' : Counters) : run o' c' u = ⟨.ok u, [], c'⟩ := by
  have finished : Finished o'.renameFree (o.bound + 1) u := mode ▸ finished_of_visit success
  exact (finished.mono (Nat.succ_le_succ le)).visit_eq_done 0 c'

/-- `(λx. x y) (λx. λy. x z)`, where all binders have one number: the `x` that is left belongs to
the binder `y`. -/
theorem run_idempotent_clashing :
    (run ⟨true, 5⟩ {} (.app (.abs "x" 3 (.app (.var "x" 3 false) (.var "y" 0 false)))
        (.abs "x" 3 (.abs "y" 3 (.app (.var "x" 3 false) (.var "z" 0 false)))))).result =
          .ok (.abs "y" 3 (.app (.var "x" 3 false) (.var (freeName 1) 0 true))) ∧
      run ⟨true, 9⟩ { names := 2, freeNames := 5, lastId := -2 }
          (.abs "y" 3 (.app (.var "x" 3 false) (.var (freeName 1) 0 true))) =
        ⟨.ok (.abs "y" 3 (.app (.var "x" 3 false) (.var (freeName 1) 0 true))), [],
          { names := 2, freeNames := 5, lastId := -2 }⟩ := by
  refine ⟨rfl, ?_⟩
  exact run_idempotent (o := ⟨true, 5⟩) (c := {}) (t := .app (.abs "x" 3 (.app (.var "x" 3 false)
    (.var "y" 0 false))) (.abs "x" 3 (.abs "y" 3 (.app (.var "x" 3 false) (.var "z" 0 false)))))
    rfl (by decide) rfl _

end UntypedLambda.Reduction
