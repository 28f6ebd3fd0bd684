import UntypedLambda.Proofs.Nameless.Confluence
import UntypedLambda.Proofs.Reduction.Results

/-! # Soundness of reduction

Reduction renames by name and substitutes by number.  A binder whose number occurs in the
argument also has a name that occurs there, since numbers determine names, and so it has been
renamed to a new number before the argument comes below it.  Hence a renaming changes nothing
in the reading by numbers, and a contraction is a contraction there. -/
set_option autoImplicit false

namespace UntypedLambda.Reduction

open Nameless

/-- From one term to another through the terms that the events show, below binders with the
numbers `scope`: each renaming keeps the reading by numbers, each contraction contracts exactly
one redex in it, and the last term shown is the one at the end. -/
inductive Traced (scope : List Int) : Term → List Event → Term → Prop where
  | nil (t : Term) : Traced scope t [] t
  | alpha {t root u : Term} {events : List Event} (binder : Term) (fresh old : String)
      (same : root.idReading scope = t.idReading scope) (rest : Traced scope root events u) :
      Traced scope t (.alpha root binder fresh old :: events) u
  | beta {t root u : Term} {events : List Event} (arg fn : Term)
      (step : Beta (t.idReading scope) (root.idReading scope))
      (rest : Traced scope root events u) : Traced scope t (.beta root arg fn :: events) u

namespace Traced

theorem append {scope : List Int} {t u v : Term} {events events' : List Event}
    (first : Traced scope t events u) (second : Traced scope u events' v) :
    Traced scope t (events ++ events') v := by
  induction first with
  | nil t => exact second
  | alpha binder fresh old same _ ih => exact .alpha binder fresh old same (ih second)
  | beta arg fn step _ ih => exact .beta arg fn step (ih second)

/-- A trace of a part is a trace of the whole, if the reading of the whole follows from that
of the part by `frame`, and contractions go with it. -/
theorem inside {scope scope' : List Int} {wrap : Term → Term} {frame : Nameless → Nameless}
    (reading : ∀ t, (wrap t).idReading scope = frame (t.idReading scope'))
    (congruence : ∀ {t u : Nameless}, Beta t u → Beta (frame t) (frame u))
    {t u : Term} {events : List Event} (part : Traced scope' t events u) :
    Traced scope (wrap t) (events.map (Event.inside wrap)) (wrap u) := by
  induction part with
  | nil t => exact .nil (wrap t)
  | alpha binder fresh old same _ ih =>
      exact .alpha binder fresh old (by rw [reading, reading, same]) ih
  | beta arg fn step _ ih =>
      refine .beta arg fn ?_ ih
      rw [reading, reading]
      exact congruence step

theorem reduces {scope : List Int} {t u : Term} {events : List Event}
    (trace : Traced scope t events u) : Reduces (t.idReading scope) (u.idReading scope) := by
  induction trace with
  | nil t => exact .refl
  | alpha binder fresh old same _ ih => rwa [same] at ih
  | beta arg fn step _ ih => exact .head step ih

end Traced

/-! ## Derivations are traces -/

/-- A binder that is renamed to the next number is read as before. -/
theorem idReading_renamed {name : String} {last : Int} {t u : Term}
    (step : Term.Renamed name (last - 1) t u) (numbers : last ≤ 0) (numbered : t.Numbered last)
    (scope : List Int) : u.idReading scope = t.idReading scope := by
  have unused : ∀ l ∈ t.labels, l.2 ≠ last - 1 := by
    intro l member
    have := numbered.low_le l member
    omega
  exact step.idReading_eq (by omega) numbered.binder_ne_zero unused scope

theorem Renames.traced {name : String} {id : Int} {t u arg : Term} {c c' : Counters}
    {events : List Event} (scope : List Int)
    (steps : Renames (fun b => .app (.abs name id b) arg) t c events u c')
    (numbers : c.lastId ≤ 0) (numbered : t.Numbered c.lastId) :
    Traced scope (.app (.abs name id t) arg) events (.app (.abs name id u) arg) := by
  induction steps with
  | nil t c => exact .nil _
  | @cons t u v c c' events binder old step rest ih =>
      have lower : c.afterAlpha.lastId ≤ 0 :=
        Int.le_trans (Counters.Before.afterAlpha c).lastId numbers
      have same := idReading_renamed step numbers numbered
      refine .alpha binder _ old ?_ (ih lower (numbered.renamed numbers step))
      simp only [Term.idReading, same]

/-- No binder that is left shares its number with the argument. -/
theorem OutOfTheWay.id_ne {name : String} {id : Int} {wrap : Term → Term} {t u arg : Term}
    {c c' : Counters} {events : List Event} (apart : OutOfTheWay c c' u arg)
    (steps : Renames wrap t c events u c') (numbers : c.lastId ≤ 0)
    (numbered : (Term.app (.abs name id t) arg).Numbered c.lastId) :
    ∀ l ∈ u.binderLabels, ∀ m ∈ arg.labels, l.2 ≠ m.2 := by
  intro l hl m hm same
  have bound : l.2 ≠ 0 := (steps.numbered numbers numbered.fn.body).binder_ne_zero l hl
  -- numbers handed out since then are below all that the argument has
  have notIssued : ¬ Issued c c' l := by
    intro issued
    have := issued.id_lt bound
    have := numbered.arg.low_le m hm
    omega
  rcases steps.labelsOf hl with before | issued
  · have inside : l ∈ (Term.abs name id t).labels :=
      List.mem_cons_of_mem _ (Term.mem_labels_of_mem_binderLabels before)
    have names : l.1 = m.1 := numbered.consistent l (List.mem_append_left _ inside) m
      (List.mem_append_right _ hm) same bound
    exact notIssued (apart l hl (Term.mem_names.mpr ⟨m, hm, names.symm⟩))
  · exact notIssued issued

theorem Derivation.traced {o : Options} {t u : Term} {c c' : Counters} {events : List Event}
    (derivation : Derivation o t c events u c') (off : o.renameFree = false)
    (numbers : c.lastId ≤ 0) (numbered : t.Numbered c.lastId) (scope : List Int) :
    Traced scope t events u := by
  induction derivation generalizing scope with
  | refl t c => exact .nil t
  | trans first second ihf ihs =>
      have lower := Int.le_trans first.before.lastId numbers
      exact (ihf numbers numbered scope).append
        (ihs lower (first.numbered numbers numbered) scope)
  | body name id _ ih =>
      exact (ih numbers numbered.body (id :: scope)).inside (fun _ => rfl) Beta.body
  | fn arg _ ih =>
      exact @Traced.inside scope scope (.app · arg) (.app · (arg.idReading scope)) (fun _ => rfl)
        (Beta.fn (arg.idReading scope)) _ _ _ (ih numbers numbered.fn scope)
  | arg fn _ ih =>
      exact (ih numbers numbered.arg scope).inside (fun _ => rfl) (Beta.arg (fn.idReading scope))
  | free on name c =>
      rw [off] at on
      cases on
  | rename steps => exact steps.traced scope numbers numbered.fn.body
  | @contract name id t u arg c c' events steps apart =>
      apply (steps.traced scope numbers numbered.fn.body).append
      refine .beta arg _ ?_ (.nil _)
      have bound : id ≠ 0 := numbered.fn.binder_ne_zero (name, id) (by simp [Term.labelsOf])
      rw [Term.idReading_substitute bound (apart.id_ne steps numbers numbered) scope]
      exact .redex _ _

/-! ## Runs -/

/-- Without holes in the term, a run stops only because it would go too deep, and that is where
the room ends. -/
theorem cause_of_visit {o : Options} {room depth : Nat} {t : Term} {c : Counters} {s : Stop}
    (whole : t.HoleFree) (stop : (visit o room depth t c).result = .error s) :
    ∃ visited, s.cause = .tooDeep visited (depth + room) := by
  induction room generalizing depth t c s with
  | zero =>
      simp only [visit, Except.error.injEq] at stop
      subst stop
      exact ⟨t, rfl⟩
  | succ room ih =>
      have deeper : depth + (room + 1) = depth + 1 + room := by omega
      rw [deeper]
      cases t with
      | hole => exact whole.elim
      | var name id renamed =>
          simp only [visit] at stop
          split at stop <;> cases stop
      | abs name id body =>
          simp only [visit, Run.map_inside_eq_andThen, Run.andThen_eq_error,
            Run.inside_eq_error] at stop
          obtain ⟨s', stop, rfl⟩ | ⟨_, _, stop⟩ := stop
          · have below : ∃ visited, s'.cause = .tooDeep visited _ := ih (t := body) whole stop
            exact below
          · cases stop
      | app fn arg =>
          simp only [visit, Run.andThen_eq_error, Run.inside_eq_error, Run.inside_eq_ok,
            Run.counters_inside] at stop
          obtain ⟨s', stop, rfl⟩ | ⟨fn', fnDone, ⟨s', stop, rfl⟩ | ⟨arg', argDone, stop⟩⟩ := stop
          · have below : ∃ visited, s'.cause = .tooDeep visited _ := ih whole.1 stop
            exact below
          · have below : ∃ visited, s'.cause = .tooDeep visited _ := ih whole.2 stop
            exact below
          · have fnWhole := (derivation_of_visit fnDone).holeFree whole.1
            have argWhole := (derivation_of_visit argDone).holeFree whole.2
            split at stop
            · rename_i name id body
              obtain ⟨v, result, contraction⟩ := contract_derives o name id body arg' _
              rcases Run.andThen_eq_error.mp stop with stop | ⟨v', success, stop⟩
              · rw [result] at stop
                cases stop
              · rw [result] at success
                cases success
                exact ih (contraction.holeFree ⟨fnWhole, argWhole⟩) stop
            · cases stop

theorem visit_cause_ne_hole {o : Options} {room depth : Nat} {t : Term} {c : Counters} {s : Stop}
    (whole : t.HoleFree) (stop : (visit o room depth t c).result = .error s) :
    s.cause ≠ .hole := by
  obtain ⟨visited, cause⟩ := cause_of_visit whole stop
  rw [cause]
  exact Stop.Cause.noConfusion

/-- The depth that an error reports is one more than the bound. -/
theorem depthError_of_run {o : Options} {t : Term} {c : Counters} {e : Error}
    (whole : t.HoleFree) (failure : (run o c t).toExcept = .error e) :
    ∃ visited reached, e = .depth ⟨visited, o.bound + 1, reached⟩ := by
  unfold Run.toExcept at failure
  cases result : (run o c t).result with
  | ok u =>
      rw [result] at failure
      cases failure
  | error stop =>
      obtain ⟨visited, cause⟩ := cause_of_visit whole result
      rw [result, Except.mapError_error, Stop.toError, cause, Nat.zero_add] at failure
      exact ⟨visited, stop.reached, (Except.error.inj failure).symm⟩

theorem exists_depthError {o : Options} {t : Term} {c : Counters} (whole : t.HoleFree)
    (failure : ∀ u, (run o c t).result ≠ .ok u) :
    ∃ e, (run o c t).toExcept = .error (.depth e) := by
  cases result : (run o c t).result with
  | ok u => exact absurd result (failure u)
  | error stop =>
      have failed : (run o c t).toExcept = .error (stop.toError .hole) := by
        rw [Run.toExcept, result, Except.mapError_error]
      obtain ⟨visited, reached, depth⟩ := depthError_of_run whole failed
      exact ⟨⟨visited, o.bound + 1, reached⟩, by rw [failed, depth]⟩

/-- Every step that a reduction shows is a step of the nameless calculus: a renaming changes
nothing there and a contraction contracts one redex.  The term at the end, be it the result or
what was reached at the depth bound, is the last one shown.  Numbers of a reducer go downwards
from minus one, and stay so. -/
theorem run_traced {o : Options} {c : Counters} {t : Term} (off : o.renameFree = false)
    (numbers : c.lastId ≤ 0) (coherent : t.Coherent c.lastId) :
    Traced [] t (run o c t).events (run o c t).final ∧
      (∀ s, (run o c t).result = .error s → s.cause ≠ .hole) ∧
      (run o c t).counters.lastId ≤ 0 := by
  have derivation := run_derives o c t
  refine ⟨derivation.traced off numbers coherent.toNumbered [], ?_, ?_⟩
  · exact fun s stop => visit_cause_ne_hole coherent.holeFree stop
  · exact Int.le_trans derivation.before.lastId numbers

/-- `(λx. λy. x) y`, where the inner binder has to be renamed first. -/
theorem run_traced_capture :
    Term.Coherent 0 (.app (.abs "x" 1 (.abs "y" 2 (.var "x" 1 false))) (.var "y" 0 false)) ∧
      Traced [] (.app (.abs "x" 1 (.abs "y" 2 (.var "x" 1 false))) (.var "y" 0 false))
        (run {} {} (.app (.abs "x" 1 (.abs "y" 2 (.var "x" 1 false))) (.var "y" 0 false))).events
        (.abs "X0" (-1) (.var "y" 0 false)) :=
  ⟨by decide, (run_traced rfl (by decide) (by decide)).1⟩

/-! ## Normal forms -/

theorem redexFree_of_visit {o : Options} {room depth : Nat} {t u : Term} {c : Counters}
    (success : (visit o room depth t c).result = .ok u) : u.RedexFree :=
  (finished_of_visit success).redexFree

/-- A result is the one normal form that the term given has in the nameless calculus, however
its redexes are contracted; terms that are convertible there have the same result. -/
theorem run_normal_form {o : Options} {c : Counters} {t u : Term} (off : o.renameFree = false)
    (numbers : c.lastId ≤ 0) (coherent : t.Coherent c.lastId)
    (success : (run o c t).result = .ok u) :
    u.RedexFree ∧ Reduces (t.idReading []) (u.idReading []) ∧
      (∀ n, Reduces (t.idReading []) n → n.IsNormal → n = u.idReading []) ∧
      ∀ (o' : Options) (c' : Counters) (t' u' : Term), o'.renameFree = false → c'.lastId ≤ 0 →
        t'.Coherent c'.lastId → (run o' c' t').result = .ok u' →
        Convertible (t.idReading []) (t'.idReading []) → u.idReading [] = u'.idReading [] := by
  have reduces : ∀ {o : Options} {c : Counters} {t u : Term}, o.renameFree = false →
      c.lastId ≤ 0 → t.Coherent c.lastId → (run o c t).result = .ok u →
      Reduces (t.idReading []) (u.idReading []) := by
    intro o c t u off numbers coherent success
    exact ((derivation_of_visit success).traced off numbers coherent.toNumbered []).reduces
  have free := redexFree_of_visit success
  have steps := reduces off numbers coherent success
  refine ⟨free, steps, ?_, ?_⟩
  · intro n toNormal normal
    exact eq_of_reduces_of_isNormal toNormal steps normal (free.isNormal_idReading [])
  · intro o' c' t' u' off' numbers' coherent' success' conversion
    exact eq_of_convertible_of_isNormal conversion steps
      (reduces off' numbers' coherent' success') (free.isNormal_idReading [])
      ((redexFree_of_visit success').isNormal_idReading [])

/-- `(λx. x x) (λx. x)`, where a binder is copied and then contracted with its copy. -/
theorem run_normal_form_copy :
    Term.Coherent 0 (.app (.abs "x" 1 (.app (.var "x" 1 false) (.var "x" 1 false)))
        (.abs "x" 2 (.var "x" 2 false))) ∧
      ∀ n, Reduces (Term.idReading [] (.app (.abs "x" 1 (.app (.var "x" 1 false) (.var "x" 1 false)))
        (.abs "x" 2 (.var "x" 2 false)))) n → n.IsNormal → n = .abs (.bound 0) :=
  ⟨by decide,
    (run_normal_form (o := {}) (c := {}) (u := .abs "x" 2 (.var "x" 2 false)) rfl (by decide)
      (by decide) rfl).2.2.1⟩

end UntypedLambda.Reduction
