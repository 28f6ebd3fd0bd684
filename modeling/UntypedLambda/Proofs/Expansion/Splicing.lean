import UntypedLambda.Expansion
import UntypedLambda.Proofs.Parser.Resolution

/-! # Splicing definitions into a term

A definition is read on its own and put below binders that it knows nothing of.  Its variables
belong to the binders that were around them when it was read, which are the innermost of those
around them now.  So numbers still determine names and a variable with a number still sees its
binder by name; only a free variable may have come below a binder of its name. -/
set_option autoImplicit false

namespace UntypedLambda

namespace Term

/-- Every variable has the number of the nearest binder of its name among the binders `inner`
that were around it when it was read. -/
inductive Spliced (ledger : Ledger) : List Label → Term → Prop where
  | var {scope inner : List Label} {name : String} (part : inner <+: scope) (word : IsWord name) :
      Spliced ledger scope (.var name ((inner.lookup name).getD 0) false)
  | abs {scope : List Label} {name : String} {id : Int} {body : Term}
      (entered : ledger.Entered (name, id)) (inside : Spliced ledger ((name, id) :: scope) body) :
      Spliced ledger scope (.abs name id body)
  | app {scope : List Label} {fn arg : Term} (left : Spliced ledger scope fn)
      (right : Spliced ledger scope arg) : Spliced ledger scope (.app fn arg)

theorem Resolved.spliced {ledger : Ledger} {scope : List Label} {t : Term}
    (resolved : t.Resolved ledger scope) : t.Spliced ledger scope := by
  induction resolved with
  | var scope word => exact .var List.prefix_rfl word
  | abs entered _ ih => exact .abs entered ih
  | app _ _ ihf iha => exact .app ihf iha

theorem Sees.append {inner : List Label} {name : String} {id : Int}
    (sees : Sees inner name id) (outer : List Label) : Sees (inner ++ outer) name id := by
  induction inner with
  | nil => exact sees.elim
  | cons l inner ih =>
      rcases sees with same | ⟨names, numbers, later⟩
      · exact Or.inl same
      · exact Or.inr ⟨names, numbers, ih later⟩

namespace Spliced

variable {ledger : Ledger} {scope : List Label} {t : Term}

theorem weaken (spliced : t.Spliced ledger scope) (outer : List Label) :
    t.Spliced ledger (scope ++ outer) := by
  induction spliced with
  | var part word => exact .var (part.trans (List.prefix_append _ _)) word
  | abs entered _ ih => exact .abs entered ih
  | app _ _ ihf iha => exact .app ihf iha

theorem holeFree (spliced : t.Spliced ledger scope) : t.HoleFree := by
  induction spliced with
  | var => trivial
  | abs _ _ ih => exact ih
  | app _ _ ihf iha => exact ⟨ihf, iha⟩

theorem entered_binder (spliced : t.Spliced ledger scope) {l : Label}
    (member : l ∈ t.binderLabels) : ledger.Entered l := by
  induction spliced with
  | var => cases member
  | abs entered _ ih =>
      rcases List.mem_cons.mp member with rfl | member
      · exact entered
      · exact ih member
  | app _ _ ihf iha =>
      rcases List.mem_append.mp member with member | member
      · exact ihf member
      · exact iha member

theorem isWord (spliced : t.Spliced ledger scope) {l : Label} (member : l ∈ t.labels) :
    IsWord l.1 := by
  induction spliced with
  | var part word =>
      rw [List.mem_singleton.mp member]
      exact word
  | abs entered _ ih =>
      rcases List.mem_cons.mp member with rfl | member
      · exact entered.word
      · exact ih member
  | app _ _ ihf iha =>
      rcases List.mem_append.mp member with member | member
      · exact ihf member
      · exact iha member

/-- Binders with one number have one name, so the first of that name is the first of that
number. -/
theorem sees_of_lookup {name : String} {id : Int} (entered : ∀ l ∈ scope, ledger.Entered l)
    (found : scope.lookup name = some id) : Sees scope name id := by
  induction scope with
  | nil => cases found
  | cons l scope ih =>
      obtain ⟨n, i⟩ := l
      rw [List.lookup_cons] at found
      by_cases same : name = n
      · subst same
        simp only [beq_self_eq_true, Option.some.injEq] at found
        exact Or.inl (by rw [found])
      · have other : (name == n) = false := beq_eq_false_iff_ne.mpr same
        rw [other] at found
        have later : Sees scope name id :=
          ih (fun l member => entered l (List.mem_cons_of_mem _ member)) found
        refine Or.inr ⟨Ne.symm same, ?_, later⟩
        intro number
        have first := entered (n, i) List.mem_cons_self
        have second := entered (name, id) (List.mem_cons_of_mem _ later.mem)
        exact same (second.name_eq first number.symm)

theorem boundFaithful (spliced : t.Spliced ledger scope)
    (entered : ∀ l ∈ scope, ledger.Entered l) : t.EveryVar BoundFaithful scope := by
  induction spliced with
  | @var scope inner name part word =>
      intro bound
      obtain ⟨outer, rfl⟩ := part
      cases found : inner.lookup name with
      | none =>
          rw [found] at bound
          exact absurd rfl bound
      | some id =>
          have sees : Sees inner name id :=
            sees_of_lookup (fun l member => entered l (List.mem_append_left _ member)) found
          exact sees.append outer
  | abs first _ ih =>
      apply ih
      intro l member
      rcases List.mem_cons.mp member with rfl | member
      · exact first
      · exact entered l member
  | app _ _ ihf iha => exact ⟨ihf entered, iha entered⟩

theorem entered (spliced : t.Spliced ledger []) {l : Label} (member : l ∈ t.labels)
    (bound : l.2 ≠ 0) : ledger.Entered l := by
  have faithful := spliced.boundFaithful (by simp)
  rcases faithful.mem_of_boundFaithful member bound with outside | inside
  · cases outside
  · exact spliced.entered_binder inside

theorem numbered (spliced : t.Spliced ledger []) : t.Numbered 0 where
  holeFree := spliced.holeFree
  binder_ne_zero := fun _ member => (spliced.entered_binder member).ne_zero
  consistent := by
    intro l hl m hm same bound
    have left := spliced.entered hl bound
    have right := spliced.entered hm (same ▸ bound)
    exact left.name_eq right same
  low_le := by
    intro l member
    by_cases bound : l.2 = 0
    · omega
    · have := (spliced.entered member bound).pos
      omega

end Spliced

/-! ## What is read is faithful -/

theorem Resolved.uncaptured {ledger : Ledger} {scope : List Label} {t : Term}
    (resolved : t.Resolved ledger scope) (entered : ∀ l ∈ scope, ledger.Entered l) :
    t.EveryVar Uncaptured scope := by
  induction resolved with
  | @var scope name word =>
      intro free l member same
      cases found : scope.lookup name with
      | none =>
          have apart := List.lookup_eq_none_iff.mp found l member
          exact absurd same.symm (by simpa using apart)
      | some id =>
          have owner := entered (name, id) (Spliced.sees_of_lookup entered found).mem
          rw [found] at free
          exact owner.ne_zero free
  | abs first _ ih =>
      apply ih
      intro l member
      rcases List.mem_cons.mp member with rfl | member
      · exact first
      · exact entered l member
  | app _ _ ihf iha => exact ⟨ihf entered, iha entered⟩

theorem Resolved.faithful {ledger : Ledger} {t : Term} (resolved : t.Resolved ledger []) :
    t.Faithful :=
  faithful_iff.mpr ⟨resolved.spliced.boundFaithful (by simp), resolved.uncaptured (by simp)⟩

end Term

/-! ## Expansion -/

namespace Expansion

namespace Run

variable {r : Run} {next : Term → Run} {wrap : Term → Term} {u : Term}

theorem inside_eq_ok : (r.inside wrap).result = .ok u ↔ r.result = .ok u := by
  cases result : r.result <;> simp [Run.inside, result]

theorem map_eq_ok : (r.map wrap).result = .ok u ↔ ∃ v, r.result = .ok v ∧ wrap v = u := by
  cases result : r.result <;> simp [Run.map, result, Except.map]

theorem andThen_eq_ok : (r.andThen next).result = .ok u ↔
    ∃ v, r.result = .ok v ∧ (next v).result = .ok u := by
  unfold Run.andThen
  cases result : r.result <;> simp

end Run

variable {ledger : Ledger} {definitions : String → Option Term}

theorem spliced_of_visit
    (resolved : ∀ name d, definitions name = some d → d.Resolved ledger [])
    {room depth : Nat} {t u : Term} {scope : List Label} (spliced : t.Spliced ledger scope)
    (success : (visit definitions room depth t).result = .ok u) : u.Spliced ledger scope := by
  induction room generalizing depth t u scope with
  | zero => cases success
  | succ room ih =>
      cases spliced with
      | @var scope inner name part word =>
          simp only [visit] at success
          split at success
          · cases success
            exact .var part word
          · rename_i d found
            split at found
            -- the definition was read below no binder, and is expanded as if it still were
            · have alone : u.Spliced ledger [] :=
                ih (resolved name d found).spliced (Run.inside_eq_ok.mp success)
              exact alone.weaken scope
            · cases found
      | @abs scope name id body entered inside =>
          simp only [visit, Run.map_eq_ok, Run.inside_eq_ok] at success
          obtain ⟨v, done, rfl⟩ := success
          exact .abs entered (ih inside done)
      | @app scope fn arg left right =>
          simp only [visit, Run.andThen_eq_ok, Run.map_eq_ok, Run.inside_eq_ok] at success
          obtain ⟨fn', fnDone, arg', argDone, rfl⟩ := success
          exact .app (ih left fnDone) (ih right argDone)

/-! ## Definitions without free variables -/

/-- A variable that is free is the name of a definition. -/
def Defined (definitions : String → Option Term) (name : String) (id : Int) (_ : Bool) : Prop :=
  id = 0 → (definitions name).isSome = true

/-- If every name in a definition is bound or has a definition, then nothing free is left of a
term of that kind. -/
theorem bound_of_visit
    (closed : ∀ name d, definitions name = some d → d.AllVars (Defined definitions))
    {room depth : Nat} {t u : Term} (whole : t.AllVars (Defined definitions))
    (success : (visit definitions room depth t).result = .ok u) :
    u.AllVars fun _ id _ => id ≠ 0 := by
  induction room generalizing depth t u with
  | zero => cases success
  | succ room ih =>
      cases t with
      | hole => cases success
      | var name id renamed =>
          simp only [visit] at success
          split at success
          · rename_i missing
            cases success
            intro free
            rw [if_pos free] at missing
            have found := whole free
            rw [missing] at found
            cases found
          · rename_i d found
            split at found
            · exact ih (closed name d found) (Run.inside_eq_ok.mp success)
            · cases found
      | abs name id body =>
          simp only [visit, Run.map_eq_ok, Run.inside_eq_ok] at success
          obtain ⟨v, done, rfl⟩ := success
          have below : v.AllVars fun _ id _ => id ≠ 0 := ih (t := body) whole done
          exact below
      | app fn arg =>
          simp only [visit, Run.andThen_eq_ok, Run.map_eq_ok, Run.inside_eq_ok] at success
          obtain ⟨fn', fnDone, arg', argDone, rfl⟩ := success
          exact ⟨ih whole.1 fnDone, ih whole.2 argDone⟩

theorem uncaptured_of_visit
    (closed : ∀ name d, definitions name = some d → d.AllVars (Defined definitions))
    {room depth : Nat} {t u : Term} {scope : List Label}
    (uncaptured : t.EveryVar Term.Uncaptured scope)
    (success : (visit definitions room depth t).result = .ok u) :
    u.EveryVar Term.Uncaptured scope := by
  induction room generalizing depth t u scope with
  | zero => cases success
  | succ room ih =>
      cases t with
      | hole => cases success
      | var name id renamed =>
          simp only [visit] at success
          split at success
          · cases success
            exact uncaptured
          · rename_i d found
            split at found
            · have bound := bound_of_visit closed (closed name d found)
                (Run.inside_eq_ok.mp success)
              exact bound.uncaptured scope
            · cases found
      | abs name id body =>
          simp only [visit, Run.map_eq_ok, Run.inside_eq_ok] at success
          obtain ⟨v, done, rfl⟩ := success
          have below : v.EveryVar Term.Uncaptured ((name, id) :: scope) := ih uncaptured done
          exact below
      | app fn arg =>
          simp only [visit, Run.andThen_eq_ok, Run.map_eq_ok, Run.inside_eq_ok] at success
          obtain ⟨fn', fnDone, arg', argDone, rfl⟩ := success
          exact ⟨ih uncaptured.1 fnDone, ih uncaptured.2 argDone⟩

end Expansion

end UntypedLambda
