import UntypedLambda.Proofs.Expansion.Supply
import UntypedLambda.Proofs.Reduction.Evaluation

/-! # Renaming free variables

With renaming on, a reduction gives every occurrence of a free variable a name of its own when it
comes to it for the first time.  It comes to them in the order in which they stand, since the
parts of an application are reduced before anything is copied, and copies share the name.  So it
does what a reduction without renaming does with the term whose occurrences have been told apart;
and when the old names are put back, what that does with the term itself.

Main statements: `reading_visit_distinguish`, `renamings_of_visit`. -/
set_option autoImplicit false

namespace UntypedLambda

/-! ## Other names for free variables -/

namespace Term

def mapFree (σ : String → String) : Term → Term
  | hole => hole
  | var name id renamed => if id = 0 then var (σ name) 0 renamed else var name id renamed
  | abs name id body => abs name id (body.mapFree σ)
  | app fn arg => app (fn.mapFree σ) (arg.mapFree σ)

theorem mapFree_idPlace (σ : String → String) (scope : List Int) (name : String) {id : Int}
    (bound : id ≠ 0) : (idPlace scope name id).mapFree σ = idPlace scope name id := by
  rw [idPlace, if_neg bound, Nameless.place]
  split <;> rfl

theorem idReading_mapFree (σ : String → String) (t : Term) (scope : List Int) :
    (t.mapFree σ).idReading scope = (t.idReading scope).mapFree σ := by
  induction t generalizing scope with
  | hole => rfl
  | var name id renamed =>
      by_cases free : id = 0
      · subst free
        rfl
      · rw [mapFree, if_neg free]
        exact (mapFree_idPlace σ scope name free).symm
  | abs name id body ih => exact congrArg Nameless.abs (ih _)
  | app fn arg ihf iha => exact congrArg₂ Nameless.app (ihf scope) (iha scope)

/-- What free variables are called can be read off. -/
theorem mapFree_idReading_eq_iff {σ τ : String → String} (t : Term) (scope : List Int) :
    (t.idReading scope).mapFree σ = (t.idReading scope).mapFree τ ↔
      ∀ name ∈ t.freeNames, σ name = τ name := by
  induction t generalizing scope with
  | hole => simp [idReading, Nameless.mapFree, freeNames, freeVars, nodes]
  | var name id renamed =>
      by_cases free : id = 0
      · subst free
        simp [idReading, idPlace, Nameless.mapFree, mem_freeNames_var]
      · simp [idReading, mapFree_idPlace _ scope name free, mem_freeNames_var, free]
  | abs name id body ih =>
      rw [freeNames_abs, ← ih (id :: scope)]
      exact ⟨Nameless.abs.inj, congrArg Nameless.abs⟩
  | app fn arg ihf iha =>
      rw [freeNames_app, List.forall_mem_append, ← ihf scope, ← iha scope]
      exact ⟨Nameless.app.inj, fun both => congrArg₂ Nameless.app both.1 both.2⟩

end Term

namespace Reduction

open Nameless

/-! ## Occurrences told apart -/

/-- Each occurrence of a free variable gets a name of its own, in the order in which they stand,
the first of them the name after `k` others. -/
def distinguish : Term → (k : Nat) → Term
  | .hole, _ => .hole
  | .var name id renamed, k =>
    if id = 0 then .var (freeName k) 0 true else .var name id renamed
  | .abs name id body, k => .abs name id (distinguish body k)
  | .app fn arg, k => .app (distinguish fn k) (distinguish arg (k + fn.freeNames.length))

/-- Names with those that are handed out in their place, after `k` others. -/
def drawn (k : Nat) (names : List String) : List (String × String) :=
  (names.zipIdx k).map fun p => (p.1, freeName p.2)

theorem drawn_append (k : Nat) (left right : List String) :
    drawn k (left ++ right) = drawn k left ++ drawn (k + left.length) right := by
  rw [drawn, List.zipIdx_append, List.map_append, drawn, drawn]

theorem map_fst_drawn (k : Nat) (names : List String) : (drawn k names).map Prod.fst = names := by
  rw [drawn, List.map_map]
  exact List.zipIdx_map_fst k names

/-- Puts the names back: the first of them for the first name that is handed out, and so on. -/
def restore (names : List String) (name : String) : String :=
  (((drawn 0 names).map Prod.swap).lookup name).getD name

theorem lookup_drawn (names : List String) (k i : Nat) :
    ((drawn k names).map Prod.swap).lookup (freeName (k + i)) = names[i]? := by
  induction names generalizing k i with
  | nil => rfl
  | cons name names ih =>
      have first : (drawn k (name :: names)).map Prod.swap =
          (freeName k, name) :: (drawn (k + 1) names).map Prod.swap := rfl
      rw [first]
      cases i with
      | zero => exact List.lookup_cons_self
      | succ i =>
          have other : (freeName (k + (i + 1)) == freeName k) = false := by
            rw [beq_eq_false_iff_ne, Ne, freeName_inj]
            omega
          have later := ih (k + 1) i
          rw [Nat.add_right_comm, Nat.add_assoc] at later
          rw [List.lookup_cons, other]
          exact later

theorem restore_freeName {names : List String} {k : Nat} (less : k < names.length) :
    restore names (freeName k) = names[k] := by
  have found := lookup_drawn names 0 k
  rw [Nat.zero_add, List.getElem?_eq_getElem less] at found
  rw [restore, found]
  rfl

/-- Telling occurrences apart is undone by putting the names back. -/
theorem idReading_distinguish {σ : String → String} (t : Term) (k : Nat)
    (restores : ∀ (i : Nat) (less : i < t.freeNames.length),
      σ (freeName (k + i)) = t.freeNames[i]) (scope : List Int) :
    ((distinguish t k).idReading scope).mapFree σ = t.idReading scope := by
  induction t generalizing k scope with
  | hole => rfl
  | var name id renamed =>
      by_cases free : id = 0
      · subst free
        have first : σ (freeName k) = name := restores 0 (Nat.zero_lt_succ 0)
        rw [distinguish, if_pos rfl, Term.idReading, Term.idPlace_zero, mapFree, first]
        rfl
      · rw [distinguish, if_neg free]
        exact Term.mapFree_idPlace σ scope name free
  | abs name id body ih =>
      rw [Term.freeNames_abs] at restores
      exact congrArg Nameless.abs (ih k restores (id :: scope))
  | app fn arg ihf iha =>
      simp only [Term.freeNames_app, List.length_append] at restores
      refine congrArg₂ Nameless.app (ihf k ?_ scope) (iha _ ?_ scope)
      · intro i less
        rw [restores i (by omega), List.getElem_append_left]
      · intro i less
        rw [Nat.add_assoc, restores (fn.freeNames.length + i) (by omega),
          List.getElem_append_right (Nat.le_add_right _ _)]
        simp

/-! ## The renamings of a run -/

/-- The name of a free variable that a step takes away, and the one it gives instead. -/
def Event.renaming? : Event → Option (String × String)
  | .free old fresh => some (old, fresh)
  | _ => none

def renamings (events : List Event) : List (String × String) :=
  events.filterMap Event.renaming?

theorem renamings_append (events more : List Event) :
    renamings (events ++ more) = renamings events ++ renamings more :=
  List.filterMap_append

theorem renamings_inside (wrap : Term → Term) (events : List Event) :
    renamings (events.map (Event.inside wrap)) = renamings events := by
  have same : ∀ e : Event, (e.inside wrap).renaming? = e.renaming? := fun e => by cases e <;> rfl
  rw [renamings, List.filterMap_map]
  exact congrArg (List.filterMap · events) (funext same)

theorem Renames.quiet {wrap : Term → Term} {t u : Term} {c c' : Counters} {events : List Event}
    (steps : Renames wrap t c events u c') :
    renamings events = [] ∧ c'.freeNames = c.freeNames := by
  induction steps with
  | nil t c => exact ⟨rfl, rfl⟩
  | cons binder old step rest ih => exact ih

section
variable {o : Options} {t u : Term} {c c' : Counters} {events : List Event}

theorem Derivation.quiet (derivation : Derivation o t c events u c') (numbers : Numbers c t)
    (quiet : Quiet o t) : renamings events = [] ∧ c'.freeNames = c.freeNames := by
  induction derivation with
  | refl t c => exact ⟨rfl, rfl⟩
  | trans first second ihf ihs =>
      obtain ⟨none, same⟩ := ihf numbers quiet
      have still := ihs (numbers.derived first)
        fun on => first.settled numbers.nonpos numbers.numbered (quiet on)
      rw [renamings_append, none, still.1, still.2, same]
      exact ⟨rfl, rfl⟩
  | body name id _ ih =>
      rw [renamings_inside]
      exact ih numbers.body quiet
  | fn arg _ ih =>
      rw [renamings_inside]
      exact ih numbers.fn fun on => (quiet on).1
  | arg fn _ ih =>
      rw [renamings_inside]
      exact ih ⟨numbers.nonpos, numbers.numbered.arg⟩ fun on => (quiet on).2
  | free on name c =>
      have mark : false = true := quiet on rfl
      cases mark
  | rename steps => exact steps.quiet
  | contract steps _ =>
      rw [renamings_append, steps.quiet.1]
      exact ⟨rfl, steps.quiet.2⟩

end

/-- An application with reduced parts: what the parts did, and what is left to do. -/
theorem visit_app_of_ok {o : Options} {room depth : Nat} {fn arg f a : Term} {c : Counters}
    (left : (visit o room (depth + 1) fn c).result = .ok f)
    (right : (visit o room (depth + 1) arg (visit o room (depth + 1) fn c).counters).result =
      .ok a) :
    ∃ rest : Run, Derives o (.app f a)
        (visit o room (depth + 1) arg (visit o room (depth + 1) fn c).counters).counters rest ∧
      visit o (room + 1) depth (.app fn arg) c =
        ⟨rest.result, (visit o room (depth + 1) fn c).events.map (Event.inside (.app · arg)) ++
          ((visit o room (depth + 1) arg (visit o room (depth + 1) fn c).counters).events.map
            (Event.inside (.app f)) ++ rest.events), rest.counters⟩ := by
  refine ⟨_, derives_finish (visit_derives o room (depth + 1)) f a _, ?_⟩
  rw [visit_app]
  simp only [Run.andThen, Run.inside, left, right, Except.mapError_ok]

/-- A reduction to the end renames every occurrence of a free variable once, in the order in
which they stand. -/
theorem renamings_of_visit {o : Options} (on : o.renameFree = true) {room depth : Nat}
    {t u : Term} {c : Counters} (numbers : Numbers c t) (unmarked : t.AllVars Term.Unmarked)
    (success : (visit o room depth t c).result = .ok u) :
    renamings (visit o room depth t c).events = drawn c.freeNames t.freeNames ∧
      (visit o room depth t c).counters.freeNames = c.freeNames + t.freeNames.length := by
  induction room generalizing depth t u c with
  | zero => cases success
  | succ room ih =>
      cases t with
      | hole => cases success
      | var name id renamed =>
          have mark : renamed = false := unmarked
          subst mark
          by_cases free : id = 0
          · subst free
            simp only [visit, on]
            exact ⟨rfl, rfl⟩
          · have none : (Term.var name id false).freeNames = [] := by
              simp [Term.freeNames, Term.freeVars, Term.nodes, Term.isFreeVar, free]
            have kept : (id == 0) = false := beq_eq_false_iff_ne.mpr free
            simp only [visit, kept, none]
            simp [Run.done, renamings, drawn]
      | abs name id body =>
          simp only [visit, Run.map_inside_eq_andThen, Run.andThen_eq_ok, Run.inside_eq_ok]
            at success
          obtain ⟨v, inside, _⟩ := success
          have below := ih numbers.body unmarked inside
          simp only [visit, Run.map, Run.inside, renamings_inside, Term.freeNames_abs]
          exact below
      | app fn arg =>
          have parts := success
          simp only [visit_app, Run.andThen_eq_ok, Run.inside_eq_ok, Run.counters_inside] at parts
          obtain ⟨f, left, a, right, _⟩ := parts
          have first := ih numbers.fn unmarked.1 left
          have second := ih (numbers.arg left) unmarked.2 right
          obtain ⟨rest, derives, whole⟩ := visit_app_of_ok left right
          have quiet : Quiet o (.app f a) :=
            fun on => ⟨settled_of_visit on left, settled_of_visit on right⟩
          have last := Derivation.quiet derives (numbers.app left right) quiet
          rw [whole, Term.freeNames_app, drawn_append]
          simp only [renamings_append, renamings_inside, first, second, last, List.append_nil,
            List.length_append, Nat.add_assoc, and_self]

/-! ## What such a run comes to -/

theorem reading_visit_distinguish {o : Options} (on : o.renameFree = true) {room depth : Nat}
    {t : Term} {c : Counters} (numbers : Numbers c t) (unmarked : t.AllVars Term.Unmarked)
    (scope : List Int) : (visit o room depth t c).reading scope =
      ((distinguish t c.freeNames).idReading scope).normalize room c.betas := by
  induction room generalizing depth t c scope with
  | zero => rfl
  | succ room ih =>
      cases t with
      | hole => exact numbers.numbered.holeFree.elim
      | var name id renamed =>
          have mark : renamed = false := unmarked
          subst mark
          by_cases free : id = 0
          · subst free
            simp only [visit, on]
            rfl
          · have kept : (id == 0) = false := beq_eq_false_iff_ne.mpr free
            rw [distinguish, if_neg free, Term.idReading, normalize_idPlace]
            simp only [visit, kept]
            rw [Bool.and_false, Bool.false_and]
            rfl
      | abs name id body =>
          rw [visit, Run.reading_abs, ih numbers.body unmarked (id :: scope)]
          rfl
      | app fn arg =>
          refine (reading_visit o room).app numbers (ih numbers.fn unmarked.1 scope) ?_
          intro f left
          rw [← (renamings_of_visit on numbers.fn unmarked.1 left).2]
          exact ih (numbers.arg left) unmarked.2 scope

/-- Without renaming, a run does the same up to the names of free variables. -/
theorem reading_run {t : Term} (numbers : Numbers {} t) (unmarked : t.AllVars Term.Unmarked)
    (bound : Nat) : (run ⟨false, bound⟩ {} t).reading [] =
      (((run ⟨true, bound⟩ {} t).reading []).1.map (Nameless.mapFree (restore t.freeNames)),
        ((run ⟨true, bound⟩ {} t).reading []).2) := by
  have off : (run ⟨false, bound⟩ {} t).reading [] = (t.idReading []).normalize (bound + 1) 0 :=
    reading_visit ⟨false, bound⟩ (bound + 1) 0 t {} [] numbers (.of_off rfl)
  have on : (run ⟨true, bound⟩ {} t).reading [] =
      ((distinguish t 0).idReading []).normalize (bound + 1) 0 :=
    reading_visit_distinguish rfl numbers unmarked []
  have restores : ∀ (i : Nat) (less : i < t.freeNames.length),
      restore t.freeNames (freeName (0 + i)) = t.freeNames[i] := by
    intro i less
    rw [Nat.zero_add, restore_freeName less]
  rw [off, on, ← idReading_distinguish t 0 restores [], normalize_mapFree]

/-! ## A new reducer -/

section
variable {bound : Nat} {t u : Term}

/-- The run tells of each occurrence of a free variable, by its old name. -/
theorem froms_of_run (numbers : Numbers {} t) (unmarked : t.AllVars Term.Unmarked)
    (success : (run ⟨true, bound⟩ {} t).result = .ok u) :
    (renamings (run ⟨true, bound⟩ {} t).events).map Prod.fst = t.freeNames := by
  rw [run, (renamings_of_visit rfl numbers unmarked success).1, map_fst_drawn]

/-- The free variables of a result have their marks and names that were handed out. -/
theorem named_of_run (numbers : Numbers {} t) (unmarked : t.AllVars Term.Unmarked)
    (success : (run ⟨true, bound⟩ {} t).result = .ok u) :
    u.AllVars fun name id renamed => id = 0 →
      renamed = true ∧ ∃ k < t.freeNames.length, name = freeName k := by
  have count := (renamings_of_visit rfl numbers unmarked success).2
  rw [Nat.zero_add] at count
  have untouched : t.AllVars (Marked 0) :=
    unmarked.mono fun _ _ _ unmarked mark => nomatch unmarked.symm.trans mark
  have marked := (derivation_of_visit success).marked numbers.nonpos numbers.numbered untouched
  rw [count] at marked
  apply ((settled_of_visit rfl success).and marked).mono
  intro name id renamed both free
  exact ⟨both.1 free, (both.2 (both.1 free)).2⟩

/-- Putting the old names back gives the result without renaming. -/
theorem exists_run_of_renamed (numbers : Numbers {} t) (unmarked : t.AllVars Term.Unmarked)
    (success : (run ⟨true, bound⟩ {} t).result = .ok u) :
    ∃ v, (run ⟨false, bound⟩ {} t).result = .ok v ∧
      (u.mapFree (restore t.freeNames)).idReading [] = v.idReading [] := by
  have results := congrArg Prod.fst (reading_run numbers unmarked bound)
  rw [Run.reading_of_ok success] at results
  obtain ⟨v, off, same⟩ := Run.reading_eq_some.mp results
  rw [Term.idReading_mapFree, ← same]
  exact ⟨v, off, rfl⟩

/-- Reducing a result once more does nothing, whatever has been handed out since. -/
theorem run_again (success : (run ⟨true, bound⟩ {} t).result = .ok u) (c : Counters)
    {bound' : Nat} (le : bound ≤ bound') : run ⟨true, bound'⟩ c u = .done u c := by
  have finished : Finished true (bound + 1) u := finished_of_visit success
  exact Finished.visit_eq_done (o := ⟨true, bound'⟩) (finished.mono (Nat.succ_le_succ le)) 0 c

end

/-- With and without renaming, a reduction succeeds alike or is stopped by the depth alike, after
the same number of contractions.  If it succeeds, putting the old names back for the new ones
gives what reads as the result without renaming, and the renamed result has nothing more to
rename. -/
theorem run_renameFree {startId : Int} {calls : List Parser.Call} {t : Term}
    (supplied : Parser.Supplies startId calls t) (bound : Nat) :
    (run ⟨true, bound⟩ {} t).counters.betas = (run ⟨false, bound⟩ {} t).counters.betas ∧
    ((∃ u v, (run ⟨true, bound⟩ {} t).result = .ok u ∧
        (run ⟨false, bound⟩ {} t).result = .ok v ∧
        (u.AllVars fun name id renamed => id = 0 → renamed = true ∧
          ∃ k < (renamings (run ⟨true, bound⟩ {} t).events).length, name = freeName k) ∧
        (u.mapFree (restore ((renamings (run ⟨true, bound⟩ {} t).events).map Prod.fst))).idReading
          [] = v.idReading [] ∧
        ∀ (c : Counters) (bound' : Nat), bound ≤ bound' →
          run ⟨true, bound'⟩ c u = .done u c) ∨
      ∃ e e', (run ⟨true, bound⟩ {} t).toExcept = .error (.depth e) ∧
        (run ⟨false, bound⟩ {} t).toExcept = .error (.depth e')) := by
  have numbers : Numbers {} t := ⟨Int.le_refl 0, supplied.numbered⟩
  have unmarked := supplied.unmarked
  have readings := reading_run numbers unmarked bound
  refine ⟨(congrArg Prod.snd readings).symm, ?_⟩
  cases on : (run ⟨true, bound⟩ {} t).result with
  | ok u =>
      obtain ⟨v, off, restored⟩ := exists_run_of_renamed numbers unmarked on
      have froms := froms_of_run numbers unmarked on
      have named := named_of_run numbers unmarked on
      rw [← froms, List.length_map] at named
      refine Or.inl ⟨u, v, rfl, off, named, ?_, ?_⟩
      · rw [froms, restored]
      · intro c bound' le
        exact run_again on c le
  | error stop =>
      have results := congrArg Prod.fst readings
      rw [Run.reading_of_error on] at results
      have failure : ∀ v, (run ⟨false, bound⟩ {} t).result ≠ .ok v := by
        intro v off
        rw [Run.reading_of_ok off] at results
        cases results
      obtain ⟨e, depth⟩ := exists_depthError supplied.holeFree fun u success => by
        rw [on] at success
        cases success
      obtain ⟨e', depth'⟩ := exists_depthError supplied.holeFree failure
      exact Or.inr ⟨e, e', depth, depth'⟩

/-- `(λx. λy. x y) k` with `k` for `y`, where only the run without renaming has a binder to
rename. -/
theorem run_renameFree_capture :
    Parser.Supplies 1 [.load (Token.scan "y").tokens, .term,
        .load (Token.scan "(\\x. \\y. x y) k").tokens, .term]
      (.app (.abs "x" 1 (.abs "y" 2 (.app (.var "x" 1 false) (.var "y" 2 false))))
        (.var "y" 0 false)) ∧
    ∃ u v, (run ⟨true, 4⟩ {} (.app (.abs "x" 1 (.abs "y" 2 (.app (.var "x" 1 false)
          (.var "y" 2 false)))) (.var "y" 0 false))).result = .ok u ∧
      u = .abs "y" 2 (.app (.var (freeName 0) 0 true) (.var "y" 2 false)) ∧
      (run ⟨false, 4⟩ {} (.app (.abs "x" 1 (.abs "y" 2 (.app (.var "x" 1 false)
          (.var "y" 2 false)))) (.var "y" 0 false))).result = .ok v ∧
      v = .abs "X0" (-1) (.app (.var "y" 0 false) (.var "X0" (-1) false)) ∧
      (u.mapFree (restore ["y"])).idReading [] = v.idReading [] ∧
      run ⟨true, 9⟩ { freeNames := 1 } u = .done u { freeNames := 1 } := by
  have returned : Parser.returned 1 [.load (Token.scan "y").tokens, .term,
      .load (Token.scan "(\\x. \\y. x y) k").tokens, .term] =
        [.var "y" 0 false, .app (.abs "x" 1 (.abs "y" 2 (.app (.var "x" 1 false)
          (.var "y" 2 false)))) (.var "k" 0 false)] := by
    decide +kernel
  have known : ∀ (name : String) (d : Term),
      (if name = "k" then some (Term.var "y" 0 false) else none) = some d →
        d ∈ [Term.var "y" 0 false, .app (.abs "x" 1 (.abs "y" 2 (.app (.var "x" 1 false)
          (.var "y" 2 false)))) (.var "k" 0 false)] := by
    intro name d found
    split at found <;> cases found
    exact List.mem_cons_self
  have supplied := @Parser.Supplies.expanded 1 [.load (Token.scan "y").tokens, .term,
    .load (Token.scan "(\\x. \\y. x y) k").tokens, .term]
    (fun name => if name = "k" then some (.var "y" 0 false) else none) 4
    (.app (.abs "x" 1 (.abs "y" 2 (.app (.var "x" 1 false) (.var "y" 2 false))))
      (.var "k" 0 false)) _ (by simp [returned]) (by rwa [returned]) rfl
  refine ⟨supplied, ?_⟩
  obtain ⟨_, ⟨u, v, on, off, _, reading, again⟩ | ⟨e, _, stopped, _⟩⟩ :=
    run_renameFree supplied 4
  · refine ⟨u, v, on, ?_, off, ?_, reading, again _ 9 (by decide)⟩
    · exact (Except.ok.inj on).symm
    · exact (Except.ok.inj off).symm
  · cases stopped

end Reduction

end UntypedLambda
