import Mathlib.Logic.Function.Iterate
import UntypedLambda.Proofs.Expansion.Splicing

/-! # Full unfolding

`Expands` says what a successful expansion computes, without a bound: every free name that has
a definition gives way to the expansion of that definition.  On nameless terms the same thing is
a replacement of all such names at once, done over and over until none is left.  Definitions are
read on their own, so their numbers may clash with those of the binders that they come below.

Main statements: `Expands.iterate_unfold`, and that an expansion has nothing more to expand,
`visit_eq_done`. -/
set_option autoImplicit false

namespace UntypedLambda

/-! ## Replacing free names -/

namespace Nameless

/-- Replaces every free name that has a value, once.  Below a binder the values move out of its
way. -/
def unfold (values : String → Option Nameless) : Nameless → Nameless
  | bound n => bound n
  | constant c =>
    match c with
    | .free name => (values name).getD (constant (.free name))
    | c => constant c
  | abs body => abs (body.unfold fun name => (values name).map (rename (· + 1)))
  | app fn arg => app (fn.unfold values) (arg.unfold values)

variable {values : String → Option Nameless}

theorem iterate_unfold_app (m : Nat) (fn arg : Nameless) :
    (unfold values)^[m] (app fn arg) =
      app ((unfold values)^[m] fn) ((unfold values)^[m] arg) := by
  induction m generalizing fn arg with
  | zero => rfl
  | succ m ih => exact ih (fn.unfold values) (arg.unfold values)

/-- Values without open indices are the same below a binder. -/
theorem iterate_unfold_abs
    (closed : ∀ name d, values name = some d → d.rename (· + 1) = d) (m : Nat)
    (body : Nameless) :
    (unfold values)^[m] (abs body) = abs ((unfold values)^[m] body) := by
  have same : (fun name => (values name).map (rename (· + 1))) = values := by
    funext name
    cases found : values name with
    | none => rfl
    | some d => rw [Option.map_some, closed name d found]
  have step : ∀ body, (abs body).unfold values = abs (body.unfold values) := by
    intro body
    rw [unfold, same]
  induction m generalizing body with
  | zero => rfl
  | succ m ih =>
      rw [Function.iterate_succ_apply, step, ih, Function.iterate_succ_apply]

theorem unfold_free_of_some {name : String} {d : Nameless} (found : values name = some d) :
    (constant (.free name)).unfold values = d := by
  simp [unfold, found]

theorem unfold_free_of_none {name : String} (missing : values name = none) :
    (constant (.free name)).unfold values = constant (.free name) := by
  simp [unfold, missing]

end Nameless

/-! ## Terms that own their variables -/

namespace Term

open Nameless

theorem Owned.outer {inner : List Label} {name : String} {id : Int} (owned : Owned inner name id)
    (outer : List Label) : Owned (inner ++ outer) name id := by
  intro bound
  rw [List.map_append]
  exact List.mem_append_left _ (owned bound)

theorem EveryVar.outer {inner : List Label} {t : Term} (owned : t.EveryVar Owned inner)
    (outer : List Label) : t.EveryVar Owned (inner ++ outer) := by
  induction t generalizing inner with
  | hole => trivial
  | var name id renamed => exact Owned.outer owned outer
  | abs name id body ih => exact @ih ((name, id) :: inner) owned
  | app fn arg ihf iha => exact ⟨ihf owned.1, iha owned.2⟩

theorem idPlace_append {inner : List Int} {name : String} {id : Int}
    (owned : id ≠ 0 → id ∈ inner) (outer : List Int) :
    idPlace (inner ++ outer) name id = idPlace inner name id := by
  unfold idPlace
  split
  · rfl
  · rename_i bound
    have inside := owned bound
    clear owned
    induction inner with
    | nil => cases inside
    | cons k inner ih =>
        by_cases own : k = id
        · subst own
          rw [List.cons_append, place_cons_self, place_cons_self]
        · rw [List.cons_append, place_cons_of_ne own, place_cons_of_ne own,
            ih (List.mem_of_ne_of_mem (Ne.symm own) inside)]

/-- No binder further out captures a variable, whatever its number. -/
theorem idReading_append {inner : List Label} {t : Term} (owned : t.EveryVar Owned inner)
    (outer : List Int) :
    t.idReading (inner.map Prod.snd ++ outer) = t.idReading (inner.map Prod.snd) := by
  induction t generalizing inner with
  | hole => rfl
  | var name id renamed => exact idPlace_append owned outer
  | abs name id body ih =>
      have below := @ih ((name, id) :: inner) owned
      simp only [List.map_cons, List.cons_append] at below
      simp only [idReading, below]
  | app fn arg ihf iha => simp only [idReading, ihf owned.1, iha owned.2]

theorem idReading_eq_of_owned {t : Term} (owned : t.EveryVar Owned []) (scope : List Int) :
    t.idReading scope = t.idReading [] :=
  idReading_append owned scope

/-- The reading of a whole term has no open indices. -/
theorem rename_idReading_nil (t : Term) (ρ : Nat → Nat) :
    (t.idReading []).rename ρ = t.idReading [] := by
  have related : t.idReading [] = (t.idReading []).subst (bound ∘ ρ) := by
    apply idReading_subst
    intro l _
    unfold idPlace
    split <;> rfl
  rw [← subst_rename, subst_bound] at related
  exact related.symm

end Term

/-! ## Expansion without a bound -/

namespace Expansion

open Term

variable {definitions : String → Option Term}

/-- The second term is the first with all names expanded. -/
inductive Expands (definitions : String → Option Term) : Term → Term → Prop where
  | keep {name : String} {id : Int} {renamed : Bool}
      (undefined : id = 0 → definitions name = none) :
      Expands definitions (.var name id renamed) (.var name id renamed)
  | unfold {name : String} {renamed : Bool} {d u : Term} (found : definitions name = some d)
      (below : Expands definitions d u) : Expands definitions (.var name 0 renamed) u
  | abs {name : String} {id : Int} {body body' : Term} (inside : Expands definitions body body') :
      Expands definitions (.abs name id body) (.abs name id body')
  | app {fn fn' arg arg' : Term} (left : Expands definitions fn fn')
      (right : Expands definitions arg arg') :
      Expands definitions (.app fn arg) (.app fn' arg')

theorem expands_of_visit {room depth : Nat} {t u : Term}
    (success : (visit definitions room depth t).result = .ok u) : Expands definitions t u := by
  induction room generalizing depth t u with
  | zero => cases success
  | succ room ih =>
      cases t with
      | hole => cases success
      | var name id renamed =>
          simp only [visit] at success
          split at success
          · rename_i missing
            cases success
            exact .keep fun free => by rwa [if_pos free] at missing
          · rename_i d found
            split at found
            · rename_i free
              subst free
              exact .unfold found (ih (Run.inside_eq_ok.mp success))
            · cases found
      | abs name id body =>
          simp only [visit, Run.map_eq_ok, Run.inside_eq_ok] at success
          obtain ⟨v, done, rfl⟩ := success
          exact .abs (ih done)
      | app fn arg =>
          simp only [visit, Run.andThen_eq_ok, Run.map_eq_ok, Run.inside_eq_ok] at success
          obtain ⟨fn', fnDone, arg', argDone, rfl⟩ := success
          exact .app (ih fnDone) (ih argDone)

namespace Expands

variable {t u : Term}

/-- With enough room the expansion is found, at whatever depth it starts. -/
theorem exists_visit (expands : Expands definitions t u) :
    ∃ enough, ∀ room ≥ enough, ∀ depth, (visit definitions room depth t).result = .ok u := by
  induction expands with
  | @keep name id renamed undefined =>
      refine ⟨1, ?_⟩
      rintro room large depth
      obtain ⟨room, rfl⟩ := Nat.exists_eq_add_of_le' large
      have missing : (if id = 0 then definitions name else none) = none := by
        split
        · exact undefined ‹_›
        · rfl
      simp only [visit, missing]
      rfl
  | @unfold name renamed d u found _ ih =>
      obtain ⟨enough, visited⟩ := ih
      refine ⟨enough + 1, ?_⟩
      rintro room large depth
      obtain ⟨room, rfl⟩ := Nat.exists_eq_add_of_le' (Nat.le_trans (Nat.le_add_left 1 enough) large)
      simp only [visit, if_true, found]
      exact Run.inside_eq_ok.mpr (visited room (by omega) (depth + 1))
  | abs _ ih =>
      obtain ⟨enough, visited⟩ := ih
      refine ⟨enough + 1, ?_⟩
      rintro room large depth
      obtain ⟨room, rfl⟩ := Nat.exists_eq_add_of_le' (Nat.le_trans (Nat.le_add_left 1 enough) large)
      simp only [visit, Run.map_eq_ok, Run.inside_eq_ok]
      exact ⟨_, visited room (by omega) (depth + 1), rfl⟩
  | app _ _ ihf iha =>
      obtain ⟨enoughFn, fnVisited⟩ := ihf
      obtain ⟨enoughArg, argVisited⟩ := iha
      refine ⟨max enoughFn enoughArg + 1, ?_⟩
      rintro room large depth
      obtain ⟨room, rfl⟩ := Nat.exists_eq_add_of_le' (Nat.le_trans (Nat.le_add_left 1 _) large)
      simp only [visit, Run.andThen_eq_ok, Run.map_eq_ok, Run.inside_eq_ok]
      exact ⟨_, fnVisited room (by omega) (depth + 1), _, argVisited room (by omega) (depth + 1),
        rfl⟩

/-! ### What is left -/

theorem holeFree (expands : Expands definitions t u) : u.HoleFree := by
  induction expands with
  | keep => trivial
  | unfold _ _ ih => exact ih
  | abs _ ih => exact ih
  | app _ _ ihf iha => exact ⟨ihf, iha⟩

theorem undefined (expands : Expands definitions t u) :
    u.AllVars fun name id _ => id = 0 → definitions name = none := by
  induction expands with
  | keep undefined => exact undefined
  | unfold _ _ ih => exact ih
  | abs _ ih => exact ih
  | app _ _ ihf iha => exact ⟨ihf, iha⟩

theorem owned (closed : ∀ name d, definitions name = some d → d.EveryVar Owned [])
    (expands : Expands definitions t u) {scope : List Label} (owned : t.EveryVar Owned scope) :
    u.EveryVar Owned scope := by
  induction expands generalizing scope with
  | keep => exact owned
  | unfold found _ ih => exact (ih (closed _ _ found)).outer scope
  | abs _ ih => exact ih owned
  | app _ _ ihf iha => exact ⟨ihf owned.1, iha owned.2⟩

/-! ### The reading -/

/-- The reading of an expansion is where replacing names by the readings of their definitions
comes to an end. -/
theorem iterate_unfold (closed : ∀ name d, definitions name = some d → d.EveryVar Owned [])
    (expands : Expands definitions t u) {scope : List Label} (whole : t.EveryVar Owned scope) :
    ∃ n, ∀ m ≥ n, (Nameless.unfold fun name => (definitions name).map (idReading []))^[m]
      (t.idReading (scope.map Prod.snd)) = u.idReading (scope.map Prod.snd) := by
  have readings : ∀ name d, (definitions name).map (idReading []) = some d →
      d.rename (· + 1) = d := by
    intro name d found
    obtain ⟨e, _, rfl⟩ := Option.map_eq_some_iff.mp found
    exact rename_idReading_nil e _
  induction expands generalizing scope with
  | @keep name id renamed undefined =>
      refine ⟨0, fun m _ => Function.iterate_fixed ?_ m⟩
      simp only [idReading, idPlace]
      split
      · rename_i free
        exact Nameless.unfold_free_of_none (by rw [undefined free]; rfl)
      · unfold Nameless.place
        split <;> rfl
  | @unfold name renamed d u found below ih =>
      obtain ⟨n, reached⟩ := @ih [] (closed name d found)
      refine ⟨n + 1, ?_⟩
      intro m large
      obtain ⟨m, rfl⟩ := Nat.exists_eq_add_of_le' (Nat.le_trans (Nat.le_add_left 1 n) large)
      have first : (Nameless.constant (.free name)).unfold
          (fun name => (definitions name).map (idReading [])) = d.idReading [] :=
        Nameless.unfold_free_of_some (by rw [found]; rfl)
      -- the copy stands below the binders of `scope`, and none of them owns a variable of it
      have copy := idReading_eq_of_owned (below.owned closed (closed name d found))
        (scope.map Prod.snd)
      rw [idReading, idPlace_zero, Function.iterate_succ_apply, first, copy]
      exact reached m (by omega)
  | @abs name id body body' _ ih =>
      obtain ⟨n, reached⟩ := @ih ((name, id) :: scope) whole
      refine ⟨n, fun m large => ?_⟩
      rw [idReading, Nameless.iterate_unfold_abs readings]
      exact congrArg Nameless.abs (reached m large)
  | app _ _ ihf iha =>
      obtain ⟨n, fnReached⟩ := ihf whole.1
      obtain ⟨k, argReached⟩ := iha whole.2
      refine ⟨max n k, fun m large => ?_⟩
      rw [idReading, Nameless.iterate_unfold_app, fnReached m (by omega), argReached m (by omega)]
      rfl

end Expands

/-! ## Room -/

/-- The room that an expansion was found in is enough for its result. -/
theorem height_lt_of_visit {room depth : Nat} {t u : Term}
    (success : (visit definitions room depth t).result = .ok u) : u.height < room := by
  induction room generalizing depth t u with
  | zero => cases success
  | succ room ih =>
      cases t with
      | hole => cases success
      | var name id renamed =>
          simp only [visit] at success
          split at success
          · cases success
            exact Nat.succ_pos room
          · have := ih (Run.inside_eq_ok.mp success)
            omega
      | abs name id body =>
          simp only [visit, Run.map_eq_ok, Run.inside_eq_ok] at success
          obtain ⟨v, done, rfl⟩ := success
          have := ih done
          simp only [height]
          omega
      | app fn arg =>
          simp only [visit, Run.andThen_eq_ok, Run.map_eq_ok, Run.inside_eq_ok] at success
          obtain ⟨fn', fnDone, arg', argDone, rfl⟩ := success
          have := ih fnDone
          have := ih argDone
          simp only [height]
          omega

/-- Where no name has a definition nothing is expanded. -/
theorem visit_eq_done {room depth : Nat} {t : Term} (whole : t.HoleFree)
    (undefined : t.AllVars fun name id _ => id = 0 → definitions name = none)
    (fits : t.height < room) : visit definitions room depth t = .done t := by
  obtain ⟨room, rfl⟩ : ∃ k, room = k + 1 := ⟨room - 1, by omega⟩
  induction t generalizing room depth with
  | hole => exact whole.elim
  | var name id renamed =>
      have missing : (if id = 0 then definitions name else none) = none := by
        split
        · exact undefined ‹_›
        · rfl
      simp only [visit, missing]
  | abs name id body ih =>
      simp only [height] at fits
      obtain ⟨room, rfl⟩ : ∃ k, room = k + 1 := ⟨room - 1, by omega⟩
      have inside : visit definitions (room + 1) (depth + 1) body = .done body :=
        ih whole undefined room (by omega)
      rw [visit, inside]
      rfl
  | app fn arg ihf iha =>
      simp only [height] at fits
      obtain ⟨room, rfl⟩ : ∃ k, room = k + 1 := ⟨room - 1, by omega⟩
      have left : visit definitions (room + 1) (depth + 1) fn = .done fn :=
        ihf whole.1 undefined.1 room (by omega)
      have right : visit definitions (room + 1) (depth + 1) arg = .done arg :=
        iha whole.2 undefined.2 room (by omega)
      rw [visit, left]
      simp only [Run.done, Run.inside, Run.andThen, Except.mapError_ok, right]
      rfl

/-! ## Failure -/

@[simp] theorem cause_inside (wrap : Term → Term) (stop : Stop) :
    (stop.inside wrap).cause = stop.cause :=
  rfl

namespace Run

variable {r : Run} {next : Term → Run} {wrap : Term → Term} {stop : Stop}

theorem inside_eq_error : (r.inside wrap).result = .error stop ↔
    ∃ stop', r.result = .error stop' ∧ stop'.inside wrap = stop := by
  cases result : r.result <;> simp [Run.inside, result]

theorem map_eq_error : (r.map wrap).result = .error stop ↔ r.result = .error stop := by
  cases result : r.result <;> simp [Run.map, result, Except.map]

theorem andThen_eq_error : (r.andThen next).result = .error stop ↔
    r.result = .error stop ∨ ∃ v, r.result = .ok v ∧ (next v).result = .error stop := by
  unfold Run.andThen
  cases result : r.result <;> simp

end Run

/-- Without holes, work stops only because it would go too deep, and that is where the room
ends. -/
theorem cause_of_visit (whole : ∀ name d, definitions name = some d → d.HoleFree)
    {room depth : Nat} {t : Term} {stop : Stop} (holeFree : t.HoleFree)
    (failure : (visit definitions room depth t).result = .error stop) :
    ∃ visited, stop.cause = .tooDeep visited (depth + room) := by
  induction room generalizing depth t stop with
  | zero =>
      simp only [visit, Except.error.injEq] at failure
      subst failure
      exact ⟨t, rfl⟩
  | succ room ih =>
      have deeper : depth + (room + 1) = depth + 1 + room := by omega
      rw [deeper]
      cases t with
      | hole => exact holeFree.elim
      | var name id renamed =>
          simp only [visit] at failure
          split at failure
          · cases failure
          · rename_i d found
            split at found
            · obtain ⟨below, failed, rfl⟩ := Run.inside_eq_error.mp failure
              rw [cause_inside]
              exact ih (whole name d found) failed
            · cases found
      | abs name id body =>
          simp only [visit, Run.map_eq_error, Run.inside_eq_error] at failure
          obtain ⟨below, failed, rfl⟩ := failure
          rw [cause_inside]
          have part : body.HoleFree := holeFree
          exact ih part failed
      | app fn arg =>
          simp only [visit, Run.andThen_eq_error, Run.map_eq_error, Run.inside_eq_error] at failure
          rcases failure with ⟨below, failed, rfl⟩ | ⟨fn', _, below, failed, rfl⟩
          · rw [cause_inside]
            exact ih holeFree.1 failed
          · rw [cause_inside]
            exact ih holeFree.2 failed

end Expansion

end UntypedLambda
