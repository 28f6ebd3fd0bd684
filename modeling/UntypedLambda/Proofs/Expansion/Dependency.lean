import Mathlib.Data.Set.Finite.List
import Mathlib.Order.WellFounded
import Std.Data.TreeMap.Lemmas
import UntypedLambda.Proofs.Expansion.Unfolding

/-! # What a term depends on

A name refers to the free names of its definition.  A term depends on its free names and all
that they refer to, one after the other.  It can be expanded exactly if it does not depend on a
name that comes back to itself.

Main statements: `Expands.acyclic`, `exists_expands`, and `run_unfolds`, all that an expansion
comes to. -/
set_option autoImplicit false

namespace UntypedLambda

/-! ## Free names -/

namespace Term

/-- The names of the free variables, in pre-order. -/
def freeNames (t : Term) : List String := t.freeVars.filterMap ownName?

theorem mem_freeNames_var {name x : String} {id : Int} {renamed : Bool} :
    x ∈ (var name id renamed).freeNames ↔ id = 0 ∧ x = name := by
  by_cases free : id = 0 <;> simp [freeNames, freeVars, nodes, isFreeVar, ownName?, free]

theorem freeNames_abs (name : String) (id : Int) (body : Term) :
    (abs name id body).freeNames = body.freeNames := by
  simp [freeNames, freeVars, nodes, isFreeVar]

theorem freeNames_app (fn arg : Term) :
    (app fn arg).freeNames = fn.freeNames ++ arg.freeNames := by
  simp [freeNames, freeVars, nodes, isFreeVar]

theorem AllVars.of_mem_freeNames {P : String → Prop} {t : Term}
    (all : t.AllVars fun name id _ => id = 0 → P name) {x : String} (member : x ∈ t.freeNames) :
    P x := by
  induction t with
  | hole => cases member
  | var name id renamed =>
      obtain ⟨free, rfl⟩ := mem_freeNames_var.mp member
      exact all free
  | abs name id body ih =>
      rw [freeNames_abs] at member
      exact ih all member
  | app fn arg ihf iha =>
      rw [freeNames_app] at member
      exact (List.mem_append.mp member).elim (ihf all.1) (iha all.2)

end Term

namespace Expansion

open Relation Term

/-- The second name is free in the definition of the first. -/
def Refers (definitions : String → Option Term) (a b : String) : Prop :=
  ∃ d, definitions a = some d ∧ b ∈ d.freeNames

/-- The name is free in the term, or in a definition that the term leads to. -/
def Needs (definitions : String → Option Term) (t : Term) (name : String) : Prop :=
  ∃ a ∈ t.freeNames, ReflTransGen (Refers definitions) a name

/-- No name that the term depends on comes back to itself. -/
def Acyclic (definitions : String → Option Term) (t : Term) : Prop :=
  ∀ name, Needs definitions t name → ¬ TransGen (Refers definitions) name name

variable {definitions : String → Option Term}

namespace Needs

variable {name x : String} {t d : Term}

theorem var_iff {id : Int} {renamed : Bool} : Needs definitions (.var name id renamed) x ↔
    id = 0 ∧ ReflTransGen (Refers definitions) name x := by
  simp only [Needs, mem_freeNames_var]
  constructor
  · rintro ⟨a, ⟨free, rfl⟩, path⟩
    exact ⟨free, path⟩
  · rintro ⟨free, path⟩
    exact ⟨name, ⟨free, rfl⟩, path⟩

theorem abs_iff {id : Int} {body : Term} :
    Needs definitions (.abs name id body) x ↔ Needs definitions body x := by
  rw [Needs, freeNames_abs, Needs]

theorem app_iff {fn arg : Term} : Needs definitions (.app fn arg) x ↔
    Needs definitions fn x ∨ Needs definitions arg x := by
  simp only [Needs, freeNames_app, List.mem_append]
  constructor
  · rintro ⟨a, left | right, path⟩
    · exact Or.inl ⟨a, left, path⟩
    · exact Or.inr ⟨a, right, path⟩
  · rintro (⟨a, left, path⟩ | ⟨a, right, path⟩)
    · exact ⟨a, Or.inl left, path⟩
    · exact ⟨a, Or.inr right, path⟩

theorem of_mem (member : x ∈ t.freeNames) : Needs definitions t x :=
  ⟨x, member, .refl⟩

theorem trans {y : String} (needs : Needs definitions t x)
    (path : ReflTransGen (Refers definitions) x y) : Needs definitions t y := by
  obtain ⟨a, member, before⟩ := needs
  exact ⟨a, member, before.trans path⟩

/-- What a definition depends on, its name does as well. -/
theorem of_definition {renamed : Bool} (found : definitions name = some d)
    (needs : Needs definitions d x) : Needs definitions (.var name 0 renamed) x := by
  obtain ⟨a, member, path⟩ := needs
  exact var_iff.mpr ⟨rfl, path.head ⟨d, found, member⟩⟩

theorem eq_or_of_path (found : definitions name = some d)
    (path : ReflTransGen (Refers definitions) name x) : x = name ∨ Needs definitions d x := by
  rcases path.cases_head with same | ⟨a, ⟨d', found', member⟩, rest⟩
  · exact Or.inl same.symm
  · cases found.symm.trans found'
    exact Or.inr ⟨a, member, rest⟩

end Needs

/-- No other definitions are looked at than those that a term depends on. -/
theorem visit_congr {definitions' : String → Option Term} {t : Term}
    (same : ∀ x, Needs definitions t x → definitions x = definitions' x) (room depth : Nat) :
    visit definitions room depth t = visit definitions' room depth t := by
  induction room generalizing depth t with
  | zero => rfl
  | succ room ih =>
      cases t with
      | hole => rfl
      | var name id renamed =>
          by_cases free : id = 0
          · subst free
            have here := same name (Needs.of_mem (mem_freeNames_var.mpr ⟨rfl, rfl⟩))
            cases found : definitions name with
            | none =>
                rw [found] at here
                simp only [visit, if_true, found, ← here]
            | some d =>
                have below := ih (t := d) (fun x needs => same x (Needs.of_definition found needs))
                rw [found] at here
                simp only [visit, if_true, found, ← here, below]
          · simp only [visit, if_neg free]
      | abs name id body =>
          have inside := ih (t := body) fun x needs => same x (Needs.abs_iff.mpr needs)
          simp only [visit, inside]
      | app fn arg =>
          have left := ih (t := fn) fun x needs => same x (Needs.app_iff.mpr (Or.inl needs))
          have right := ih (t := arg) fun x needs => same x (Needs.app_iff.mpr (Or.inr needs))
          simp only [visit, left, right]

/-! ## Expansion ends on acyclic definitions only -/

/-- A definition that depends on its own name is on a cycle. -/
theorem transGen_of_needs {name : String} {d : Term} (found : definitions name = some d)
    (needs : Needs definitions d name) : TransGen (Refers definitions) name name := by
  obtain ⟨a, member, path⟩ := needs
  exact TransGen.head' ⟨d, found, member⟩ path

theorem Expands.acyclic {t u : Term} (expands : Expands definitions t u) :
    Acyclic definitions t := by
  induction expands with
  | @keep name id renamed undefined =>
      intro x needs cycle
      obtain ⟨free, path⟩ := Needs.var_iff.mp needs
      have missing := undefined free
      -- nothing starts at an undefined name, so the name itself would be on the cycle
      rcases path.cases_head with rfl | ⟨a, ⟨d, found, _⟩, _⟩
      · obtain ⟨a, ⟨d, found, _⟩, _⟩ := TransGen.head'_iff.mp cycle
        rw [missing] at found
        cases found
      · rw [missing] at found
        cases found
  | @unfold name renamed d u found below ih =>
      intro x needs cycle
      obtain ⟨_, path⟩ := Needs.var_iff.mp needs
      rcases Needs.eq_or_of_path found path with rfl | inside
      · obtain ⟨a, ⟨d', found', member⟩, rest⟩ := TransGen.head'_iff.mp cycle
        cases found.symm.trans found'
        exact ih x ⟨a, member, rest⟩ cycle
      · exact ih x inside cycle
  | abs _ ih =>
      intro x needs
      exact ih x (Needs.abs_iff.mp needs)
  | app _ _ ihf iha =>
      intro x needs
      exact (Needs.app_iff.mp needs).elim (ihf x) (iha x)

/-! ## Acyclic definitions can be expanded -/

theorem exists_expands_of_definitions {t : Term} (whole : t.HoleFree)
    (expanded : ∀ name ∈ t.freeNames, ∀ d, definitions name = some d →
      ∃ u, Expands definitions d u) : ∃ u, Expands definitions t u := by
  induction t with
  | hole => exact whole.elim
  | var name id renamed =>
      by_cases free : id = 0
      · subst free
        cases found : definitions name with
        | none => exact ⟨_, .keep fun _ => found⟩
        | some d =>
            obtain ⟨u, below⟩ := expanded name (mem_freeNames_var.mpr ⟨rfl, rfl⟩) d found
            exact ⟨u, .unfold found below⟩
      · exact ⟨_, .keep fun zero => absurd zero free⟩
  | abs name id body ih =>
      rw [freeNames_abs] at expanded
      obtain ⟨body', inside⟩ := ih whole expanded
      exact ⟨_, .abs inside⟩
  | app fn arg ihf iha =>
      rw [freeNames_app] at expanded
      obtain ⟨fn', left⟩ := ihf whole.1 fun name member =>
        expanded name (List.mem_append_left _ member)
      obtain ⟨arg', right⟩ := iha whole.2 fun name member =>
        expanded name (List.mem_append_right _ member)
      exact ⟨_, .app left right⟩

/-- The names with a definition that the term depends on. -/
abbrev Used (definitions : String → Option Term) (t : Term) : Type :=
  {name // definitions name ≠ none ∧ Needs definitions t name}

/-- The first name comes right after the second. -/
def Used.Follows {t : Term} (a b : Used definitions t) : Prop := Refers definitions b.1 a.1

/-- Only finitely many names have definitions, so references that do not come back end. -/
theorem wellFounded_follows (finite : {name | definitions name ≠ none}.Finite) {t : Term}
    (acyclic : Acyclic definitions t) : WellFounded (@Used.Follows definitions t) := by
  have : Finite (Used definitions t) := (finite.subset fun _ both => both.1).to_subtype
  have path : ∀ a b : Used definitions t, TransGen Used.Follows a b →
      TransGen (Refers definitions) b.1 a.1 := by
    intro a b steps
    induction steps with
    | single step => exact .single step
    | tail _ step ih => exact .head step ih
  have irreflexive : Std.Irrefl (TransGen (@Used.Follows definitions t)) :=
    ⟨fun a cycle => acyclic a.1 a.2.2 (path a a cycle)⟩
  have ends := Finite.wellFounded_of_trans_of_irrefl (TransGen (@Used.Follows definitions t))
  exact Subrelation.wf TransGen.single ends

theorem exists_expands (finite : {name | definitions name ≠ none}.Finite)
    (whole : ∀ name d, definitions name = some d → d.HoleFree) {t : Term} (holeFree : t.HoleFree)
    (acyclic : Acyclic definitions t) : ∃ u, Expands definitions t u := by
  have each : ∀ (a : Used definitions t) (d : Term), definitions a.1 = some d →
      ∃ u, Expands definitions d u := by
    intro a
    induction a using (wellFounded_follows finite acyclic).induction with
    | h a ih =>
        intro d found
        apply exists_expands_of_definitions (whole a.1 d found)
        intro name member d' found'
        have step : Refers definitions a.1 name := ⟨d, found, member⟩
        have defined : definitions name ≠ none := by simp [found']
        exact ih ⟨name, defined, a.2.2.trans (.single step)⟩ step d' found'
  apply exists_expands_of_definitions holeFree
  intro name member d found
  exact each ⟨name, by simp [found], .of_mem member⟩ d found

/-! ## A whole term -/

theorem finite_bindings (bindings : Std.TreeMap String Term) :
    {name : String | bindings[name]? ≠ none}.Finite := by
  apply (List.finite_toSet bindings.keys).subset
  intro name bound
  have isSome : bindings[name]?.isSome := Option.isSome_iff_ne_none.mpr bound
  exact Std.TreeMap.mem_keys.mpr (Std.TreeMap.mem_iff_isSome_getElem?.mpr isSome)

theorem exists_setting_of_expands {t u : Term} (expands : Expands definitions t u) :
    ∃ setting : Int, (run definitions (Bound.ofSetting setting) t).result = .ok u := by
  obtain ⟨enough, visited⟩ := expands.exists_visit
  refine ⟨enough + 1, visited _ ?_ 0⟩
  unfold Bound.ofSetting
  split <;> omega

/-- The depth that an error reports is one more than the bound. -/
theorem depthError_of_run {bound : Nat} {t : Term} {e : Error}
    (whole : ∀ name d, definitions name = some d → d.HoleFree) (holeFree : t.HoleFree)
    (failure : (run definitions bound t).toExcept = .error e) :
    ∃ visited reached, e = .depth ⟨visited, bound + 1, reached⟩ := by
  unfold Run.toExcept at failure
  cases result : (run definitions bound t).result with
  | ok u =>
      rw [result] at failure
      cases failure
  | error stop =>
      obtain ⟨visited, cause⟩ := cause_of_visit whole holeFree result
      rw [result, Except.mapError_error, Stop.toError, cause, Nat.zero_add] at failure
      exact ⟨visited, stop.reached, (Except.error.inj failure).symm⟩

theorem exists_depthError {bound : Nat} {t : Term}
    (whole : ∀ name d, definitions name = some d → d.HoleFree) (holeFree : t.HoleFree)
    (failure : ∀ u, (run definitions bound t).result ≠ .ok u) :
    ∃ e, (run definitions bound t).toExcept = .error (.depth e) := by
  cases result : (run definitions bound t).result with
  | ok u => exact absurd result (failure u)
  | error stop =>
      have failed : (run definitions bound t).toExcept = .error (stop.toError .holeExpanded) := by
        rw [Run.toExcept, result, Except.mapError_error]
      obtain ⟨visited, reached, depth⟩ := depthError_of_run whole holeFree failed
      exact ⟨⟨visited, bound + 1, reached⟩, by rw [failed, depth]⟩

/-- An expansion that succeeds reads as the term does when all its names are replaced until none
is left, and it has nothing more to expand.  Some bound lets it succeed exactly if the term does
not depend on a name that comes back to itself; if it does, every bound is too low. -/
theorem run_unfolds (bindings : Std.TreeMap String Term)
    (definitions : ∀ (name : String) (d : Term), bindings[name]? = some d →
      d.HoleFree ∧ d.EveryVar Owned [])
    {t : Term} (whole : t.HoleFree) (owned : t.EveryVar Owned []) :
    (∀ bound u, (run (fun name => bindings[name]?) bound t).result = .ok u →
      (∃ n, ∀ m ≥ n, (Nameless.unfold fun name => bindings[name]?.map (idReading []))^[m]
        (t.idReading []) = u.idReading []) ∧
      (∀ name ∈ u.freeNames, bindings[name]? = none) ∧
      run (fun name => bindings[name]?) bound u = .done u) ∧
    ((∃ (setting : Int) (u : Term),
        (run (fun name => bindings[name]?) (Bound.ofSetting setting) t).result = .ok u) ↔
      Acyclic (fun name => bindings[name]?) t) ∧
    (¬ Acyclic (fun name => bindings[name]?) t → ∀ bound, ∃ e,
      (run (fun name => bindings[name]?) bound t).toExcept = .error (.depth e)) := by
  have holeFree := fun name d found => (definitions name d found).1
  have closed := fun name d found => (definitions name d found).2
  refine ⟨?_, ⟨?_, ?_⟩, ?_⟩
  · intro bound u success
    have expands := expands_of_visit success
    exact ⟨@Expands.iterate_unfold _ t u closed expands [] owned,
      fun name member => expands.undefined.of_mem_freeNames member,
      visit_eq_done expands.holeFree expands.undefined (height_lt_of_visit success)⟩
  · rintro ⟨setting, u, success⟩
    exact (expands_of_visit success).acyclic
  · intro acyclic
    obtain ⟨u, expands⟩ := exists_expands (finite_bindings bindings) holeFree whole acyclic
    obtain ⟨setting, success⟩ := exists_setting_of_expands expands
    exact ⟨setting, u, success⟩
  · intro cyclic bound
    apply exists_depthError holeFree whole
    intro u success
    exact cyclic (expands_of_visit success).acyclic

/-- `a = λx. x b` and `b = λx. c`, where both binders have the number one. -/
def clashing : Std.TreeMap String Term :=
  (Std.TreeMap.empty.insert "a" (.abs "x" 1 (.app (.var "x" 1 false) (.var "b" 0 false)))).insert
    "b" (.abs "x" 1 (.var "c" 0 false))

theorem getElem?_clashing (name : String) : clashing[name]? =
    if "b" = name then some (.abs "x" 1 (.var "c" 0 false))
    else if "a" = name then some (.abs "x" 1 (.app (.var "x" 1 false) (.var "b" 0 false)))
    else none := by
  simp [clashing, Std.TreeMap.getElem?_insert]

/-- In `λx. a x`, whose binder has that number too, each `x` stays with its own binder. -/
theorem run_unfolds_clashing :
    ∃ u, (run (fun name => clashing[name]?) 7
        (.abs "x" 1 (.app (.var "a" 0 false) (.var "x" 1 false)))).result = .ok u ∧
      (∃ n, ∀ m ≥ n, (Nameless.unfold fun name => clashing[name]?.map (idReading []))^[m]
        (.abs (.app (.constant (.free "a")) (.bound 0))) = u.idReading []) ∧
      u.idReading [] = .abs (.app (.abs (.app (.bound 0) (.abs (.constant (.free "c")))))
        (.bound 0)) ∧
      run (fun name => clashing[name]?) 7 u = .done u := by
  have definitions : ∀ (name : String) (d : Term), clashing[name]? = some d →
      d.HoleFree ∧ d.EveryVar Owned [] := by
    intro name d found
    rw [getElem?_clashing] at found
    split at found
    · cases found
      decide
    · split at found
      · cases found
        decide
      · cases found
  have success : (run (fun name => clashing[name]?) 7
      (.abs "x" 1 (.app (.var "a" 0 false) (.var "x" 1 false)))).result =
        .ok (.abs "x" 1 (.app (.abs "x" 1 (.app (.var "x" 1 false)
          (.abs "x" 1 (.var "c" 0 false)))) (.var "x" 1 false))) := by
    simp only [getElem?_clashing]
    rfl
  obtain ⟨reading, _, again⟩ :=
    (run_unfolds clashing definitions (by decide) (by decide)).1 7 _ success
  exact ⟨_, success, reading, rfl, again⟩

end Expansion

end UntypedLambda
