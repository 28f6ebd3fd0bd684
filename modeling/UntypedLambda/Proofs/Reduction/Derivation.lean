import UntypedLambda.Proofs.Term.Scope
import UntypedLambda.Reduction

/-! # Derivations

What a reduction can do to a term, said once as a relation: rename binders of a redex, contract
it when the binders left are out of the way, give a free variable a name, all of it anywhere in
a term and one after the other.  Every run is a derivation, also one that stops early, and what
holds of runs is derived from there.

Main statements: `visit_derives`, and `Derivation.numbered`, numbers determine names all along. -/
set_option autoImplicit false

namespace UntypedLambda.Reduction

/-- The name of the binder that is renamed after `k` others. -/
def binderName (k : Nat) : String := "X" ++ toString k

/-- The name of the free variable that is renamed after `k` others. -/
def freeName (k : Nat) : String := "X`" ++ toString k

namespace Counters

def afterAlpha (c : Counters) : Counters :=
  { c with names := c.names + 1, lastId := c.lastId - 1, alphas := c.alphas + 1 }

def afterBeta (c : Counters) : Counters := { c with betas := c.betas + 1 }

def afterFree (c : Counters) : Counters :=
  { c with freeNames := c.freeNames + 1, frees := c.frees + 1 }

/-- Nothing that is handed out is taken back. -/
structure Before (c c' : Counters) : Prop where
  names : c.names ≤ c'.names
  freeNames : c.freeNames ≤ c'.freeNames
  lastId : c'.lastId ≤ c.lastId

namespace Before

theorem refl (c : Counters) : Before c c := ⟨Nat.le_refl _, Nat.le_refl _, Int.le_refl _⟩

theorem trans {c c' c'' : Counters} (first : Before c c') (second : Before c' c'') :
    Before c c'' :=
  ⟨Nat.le_trans first.names second.names, Nat.le_trans first.freeNames second.freeNames,
    Int.le_trans second.lastId first.lastId⟩

theorem afterAlpha (c : Counters) : Before c c.afterAlpha :=
  ⟨Nat.le_succ _, Nat.le_refl _, Int.sub_le_self _ (by decide)⟩

theorem afterFree (c : Counters) : Before c c.afterFree :=
  ⟨Nat.le_refl _, Nat.le_succ _, Int.le_refl _⟩

end Before

end Counters

/-- A label that is handed out between two moments. -/
inductive Issued (c c' : Counters) : Label → Prop where
  | binder {k : Nat} {id : Int} (least : c.names ≤ k) (most : k < c'.names)
      (lowest : c'.lastId ≤ id) (highest : id < c.lastId) : Issued c c' (binderName k, id)
  | free {k : Nat} (least : c.freeNames ≤ k) (most : k < c'.freeNames) :
      Issued c c' (freeName k, 0)

theorem Issued.mono {a b c d : Counters} {l : Label} (issued : Issued b c l)
    (earlier : a.Before b) (later : c.Before d) : Issued a d l := by
  cases issued with
  | binder least most lowest highest =>
      exact .binder (Nat.le_trans earlier.names least) (Nat.lt_of_lt_of_le most later.names)
        (Int.le_trans later.lastId lowest) (Int.lt_of_lt_of_le highest earlier.lastId)
  | free least most =>
      exact .free (Nat.le_trans earlier.freeNames least) (Nat.lt_of_lt_of_le most later.freeNames)

/-- Such a label belongs to a free variable or has a number not used before. -/
theorem Issued.id_lt {c c' : Counters} {l : Label} (issued : Issued c c' l) (bound : l.2 ≠ 0) :
    l.2 < c.lastId := by
  cases issued with
  | binder _ _ _ highest => exact highest
  | free _ _ => exact absurd rfl bound

/-! ## Renaming binders one after the other -/

/-- Some binders of a term are renamed, each to the next name and number.  The events show
the term in the place that `wrap` gives it. -/
inductive Renames (wrap : Term → Term) :
    Term → Counters → List Event → Term → Counters → Prop where
  | nil (t : Term) (c : Counters) : Renames wrap t c [] t c
  | cons {t u v : Term} {c c' : Counters} {events : List Event} (binder : Term) (old : String)
      (step : Term.Renamed (binderName c.names) (c.lastId - 1) t u)
      (rest : Renames wrap u c.afterAlpha events v c') :
      Renames wrap t c (.alpha (wrap u) binder (binderName c.names) old :: events) v c'

namespace Renames

variable {wrap : Term → Term} {t u : Term} {c c' : Counters} {events : List Event}

theorem before (steps : Renames wrap t c events u c') : c.Before c' := by
  induction steps with
  | nil t c => exact .refl c
  | @cons t u v c c' events binder old step rest ih => exact (Counters.Before.afterAlpha c).trans ih

theorem labelsOf {withVars : Bool} (steps : Renames wrap t c events u c') {l : Label}
    (member : l ∈ u.labelsOf withVars) : l ∈ t.labelsOf withVars ∨ Issued c c' l := by
  induction steps with
  | nil t c => exact Or.inl member
  | @cons t u v c c' events binder old step rest ih =>
      rcases ih member with earlier | issued
      · rcases step.labelsOf earlier with earlier | rfl
        · exact Or.inl earlier
        · have after := rest.before
          have names : c.names < c'.names := after.names
          have numbers : c'.lastId ≤ c.lastId - 1 := after.lastId
          exact Or.inr (.binder (Nat.le_refl _) names numbers (by omega))
      · exact Or.inr (issued.mono (.afterAlpha c) (.refl c'))

theorem holeFree (steps : Renames wrap t c events u c') (whole : t.HoleFree) : u.HoleFree := by
  induction steps with
  | nil t c => exact whole
  | cons binder old step rest ih => exact ih (step.holeFree whole)

theorem numbered (steps : Renames wrap t c events u c') (numbers : c.lastId ≤ 0)
    (numbered : t.Numbered c.lastId) : u.Numbered c'.lastId := by
  induction steps with
  | nil t c => exact numbered
  | @cons t u v c c' events binder old step rest ih =>
      have lower : c.afterAlpha.lastId ≤ 0 :=
        Int.le_trans (Counters.Before.afterAlpha c).lastId numbers
      exact ih lower (numbered.renamed numbers step)

theorem numbered_redex {name : String} {id : Int} {arg : Term}
    (steps : Renames wrap t c events u c') (numbers : c.lastId ≤ 0)
    (numbered : (Term.app (.abs name id t) arg).Numbered c.lastId) :
    (Term.app (.abs name id u) arg).Numbered c'.lastId := by
  have origin : ∀ l ∈ u.labels, l ∈ t.labels ∨ (l.2 ≠ 0 → l.2 < c.lastId) :=
    fun l member => (steps.labelsOf member).imp_right Issued.id_lt
  have lower := steps.before.lastId
  have part := steps.numbered numbers numbered.fn.body
  have fn := numbered.fn.replace_body part lower origin
  apply numbered.replace_fn fn lower
  intro l member
  rcases List.mem_cons.mp member with same | inside
  · exact Or.inl (by simp [Term.labelsOf, same])
  · exact (origin l inside).imp_left (List.mem_cons_of_mem _)

end Renames

/-! ## The relation -/

/-- The binders of `body` that still clash with `arg` by name were renamed since `c`. -/
def OutOfTheWay (c c' : Counters) (body arg : Term) : Prop :=
  ∀ l ∈ body.binderLabels, l.1 ∈ arg.names → Issued c c' l

inductive Derivation (o : Options) :
    Term → Counters → List Event → Term → Counters → Prop where
  | refl (t : Term) (c : Counters) : Derivation o t c [] t c
  | trans {t u v : Term} {c c' c'' : Counters} {events events' : List Event}
      (first : Derivation o t c events u c') (second : Derivation o u c' events' v c'') :
      Derivation o t c (events ++ events') v c''
  | body {t u : Term} {c c' : Counters} {events : List Event} (name : String) (id : Int)
      (inside : Derivation o t c events u c') :
      Derivation o (.abs name id t) c (events.map (Event.inside (.abs name id)))
        (.abs name id u) c'
  | fn {t u : Term} {c c' : Counters} {events : List Event} (arg : Term)
      (inside : Derivation o t c events u c') :
      Derivation o (.app t arg) c (events.map (Event.inside (.app · arg))) (.app u arg) c'
  | arg (fn : Term) {t u : Term} {c c' : Counters} {events : List Event}
      (inside : Derivation o t c events u c') :
      Derivation o (.app fn t) c (events.map (Event.inside (.app fn))) (.app fn u) c'
  | free (on : o.renameFree = true) (name : String) (c : Counters) :
      Derivation o (.var name 0 false) c [.free name (freeName c.freeNames)]
        (.var (freeName c.freeNames) 0 true) c.afterFree
  | rename {name : String} {id : Int} {t u arg : Term} {c c' : Counters} {events : List Event}
      (steps : Renames (fun b => .app (.abs name id b) arg) t c events u c') :
      Derivation o (.app (.abs name id t) arg) c events (.app (.abs name id u) arg) c'
  | contract {name : String} {id : Int} {t u arg : Term} {c c' : Counters} {events : List Event}
      (steps : Renames (fun b => .app (.abs name id b) arg) t c events u c')
      (apart : OutOfTheWay c c' u arg) :
      Derivation o (.app (.abs name id t) arg) c
        (events ++ [.beta (Term.substitute id arg u) arg (.abs name id u)])
        (Term.substitute id arg u) c'.afterBeta

/-- The term that a run ends with: its result, or what the term had become when it stopped. -/
def Run.final (r : Run) : Term :=
  match r.result with
  | .ok t => t
  | .error s => s.reached

def Derives (o : Options) (t : Term) (c : Counters) (r : Run) : Prop :=
  Derivation o t c r.events r.final r.counters

namespace Run

variable {r : Run} {next : Term → Counters → Run} {wrap : Term → Term} {s : Stop} {u : Term}

@[simp] theorem counters_inside : (r.inside wrap).counters = r.counters := rfl

theorem inside_eq_ok : (r.inside wrap).result = .ok u ↔ r.result = .ok u := by
  cases result : r.result <;> simp [Run.inside, result]

theorem inside_eq_error :
    (r.inside wrap).result = .error s ↔ ∃ s', r.result = .error s' ∧ s'.inside wrap = s := by
  cases result : r.result <;> simp [Run.inside, result]

theorem andThen_eq_ok : (r.andThen next).result = .ok u ↔
    ∃ v, r.result = .ok v ∧ (next v r.counters).result = .ok u := by
  unfold Run.andThen
  cases result : r.result <;> simp

theorem andThen_eq_error : (r.andThen next).result = .error s ↔
    r.result = .error s ∨ ∃ v, r.result = .ok v ∧ (next v r.counters).result = .error s := by
  unfold Run.andThen
  cases result : r.result <;> simp

theorem andThen_congr {next' : Term → Counters → Run}
    (same : ∀ t, r.result = .ok t → next t r.counters = next' t r.counters) :
    r.andThen next = r.andThen next' := by
  unfold Run.andThen
  cases result : r.result with
  | error stop => rfl
  | ok t => simp only [same t result]

theorem map_inside_eq_andThen (wrap : Term → Term) (r : Run) :
    (r.inside wrap).map wrap = (r.inside wrap).andThen fun u c => .done (wrap u) c := by
  obtain ⟨result, events, counters⟩ := r
  cases result <;> simp [Run.inside, Run.map, Run.andThen, Run.done, Except.map]

theorem final_of_ok (success : r.result = .ok u) : r.final = u := by rw [final, success]

theorem final_of_error (stop : r.result = .error s) : r.final = s.reached := by rw [final, stop]

end Run

section Runs
variable {o : Options} {t : Term} {c : Counters} {r : Run} {next : Term → Counters → Run}

theorem derives_done (o : Options) (t : Term) (c : Counters) : Derives o t c (.done t c) :=
  .refl t c

theorem derives_andThen
    (stopped : ∀ s, r.result = .error s → Derivation o t c r.events s.reached r.counters)
    (went : ∀ u, r.result = .ok u → ∃ v, Derivation o t c r.events v r.counters ∧
      Derives o v r.counters (next u r.counters)) :
    Derives o t c (r.andThen next) := by
  unfold Run.andThen
  cases result : r.result with
  | error s => exact stopped s result
  | ok u =>
      obtain ⟨v, first, second⟩ := went u result
      exact first.trans second

/-- A run of a part, and what follows it, seen from the term around. -/
theorem derives_inside_andThen {wrap : Term → Term}
    (context : ∀ {t u : Term} {c c' : Counters} {events : List Event},
      Derivation o t c events u c' →
        Derivation o (wrap t) c (events.map (Event.inside wrap)) (wrap u) c')
    (part : Derives o t c r)
    (went : ∀ u, r.result = .ok u → Derives o (wrap u) r.counters (next u r.counters)) :
    Derives o (wrap t) c ((r.inside wrap).andThen next) := by
  have around := context part
  apply derives_andThen
  · intro s stop
    obtain ⟨s', stop', rfl⟩ := Run.inside_eq_error.mp stop
    rw [Run.final_of_error stop'] at around
    exact around
  · intro u success
    have success' := Run.inside_eq_ok.mp success
    rw [Run.final_of_ok success'] at around
    exact ⟨wrap u, around, went u success'⟩

end Runs

/-! ## A contraction -/

/-- Renaming along a list of paths renames binders, and those at the paths are among them. -/
theorem freshen_renames (wrap : Term → Term) (paths : List Path) (body : Term) (c : Counters) :
    ∃ u, (freshen wrap paths body c).result = .ok u ∧
      Renames wrap body c (freshen wrap paths body c).events u
        (freshen wrap paths body c).counters ∧
      ∀ q l, u.binderAt? q = some l →
        Issued c (freshen wrap paths body c).counters l ∨
          q ∉ paths ∧ body.binderAt? q = some l := by
  induction paths generalizing body c with
  | nil =>
      refine ⟨body, rfl, .nil body c, ?_⟩
      intro q l found
      exact Or.inr ⟨List.not_mem_nil, found⟩
  | cons p paths ih =>
      simp only [freshen, renameBinder]
      split
      · rename_i old id inner found
        obtain ⟨u, result, renames, binders⟩ :=
          ih (body.modify (Term.rename (binderName c.names) (c.lastId - 1)) p) c.afterAlpha
        refine ⟨u, result, .cons _ old (Term.renamed_modify found) renames, ?_⟩
        intro q l foundLater
        have later : c.afterAlpha.Before _ := renames.before
        rcases binders q l foundLater with issued | ⟨notLater, before⟩
        · exact Or.inl (issued.mono (.afterAlpha c) (.refl _))
        -- a binder that no later path leads to is either this one or none of those renamed
        · by_cases same : q = p
          · subst same
            have owner : body.binderAt? q = some (old, id) := by rw [Term.binderAt?, found]
            rw [Term.binderAt?_modify_rename_self owner] at before
            cases before
            have names : c.names < _ := later.names
            have numbers : _ ≤ c.lastId - 1 := later.lastId
            exact Or.inl (.binder (Nat.le_refl _) names numbers (by omega))
          · rw [Term.binderAt?_modify_rename same] at before
            exact Or.inr ⟨by simp [same, notLater], before⟩
      · rename_i missing
        obtain ⟨u, result, renames, binders⟩ := ih body c
        refine ⟨u, result, renames, ?_⟩
        intro q l foundLater
        rcases binders q l foundLater with issued | ⟨notLater, before⟩
        · exact Or.inl issued
        · refine Or.inr ⟨?_, before⟩
          rintro (_ | ⟨_, member⟩)
          · rw [Term.binderAt?] at before
            split at before
            · rename_i name id inner found
              exact missing name id inner found
            · cases before
          · exact notLater member

/-- A contraction renames binders until the rest is out of the way, and then substitutes. -/
theorem contract_eq (name : String) (id : Int) (body arg : Term) (c : Counters) :
    ∃ u events c', Renames (fun b => .app (.abs name id b) arg) body c events u c' ∧
      OutOfTheWay c c' u arg ∧ contract name id body arg c =
        ⟨.ok (Term.substitute id arg u),
          events ++ [.beta (Term.substitute id arg u) arg (.abs name id u)], c'.afterBeta⟩ := by
  obtain ⟨u, result, renames, binders⟩ := freshen_renames (fun b => .app (.abs name id b) arg)
    (body.bindersNamed arg.names) body c
  refine ⟨u, _, _, renames, ?_, ?_⟩
  · intro l member clash
    obtain ⟨q, found⟩ := Term.exists_binderAt? member
    rcases binders q l found with issued | ⟨notListed, before⟩
    · exact issued
    · exact absurd (Term.mem_bindersNamed before clash) notListed
  · simp only [contract, Run.andThen, result]
    rfl

theorem contract_derives (o : Options) (name : String) (id : Int) (body arg : Term)
    (c : Counters) :
    ∃ u, (contract name id body arg c).result = .ok u ∧
      Derivation o (.app (.abs name id body) arg) c (contract name id body arg c).events u
        (contract name id body arg c).counters := by
  obtain ⟨u, events, c', renames, apart, run⟩ := contract_eq name id body arg c
  rw [run]
  exact ⟨Term.substitute id arg u, rfl, .contract renames apart⟩

/-! ## Every run is a derivation -/

/-- What is left to do of an application when its parts are reduced. -/
def finish (o : Options) (room depth : Nat) (fn arg : Term) (c : Counters) : Run :=
  match fn with
  | .abs name id body => (contract name id body arg c).andThen (visit o room depth)
  | fn => .done (.app fn arg) c

theorem visit_app (o : Options) (room depth : Nat) (fn arg : Term) (c : Counters) :
    visit o (room + 1) depth (.app fn arg) c =
      ((visit o room (depth + 1) fn c).inside (.app · arg)).andThen fun fn c =>
        ((visit o room (depth + 1) arg c).inside (.app fn)).andThen
          (finish o room (depth + 1) fn) := by
  rw [visit]
  rfl

theorem derives_finish {o : Options} {room depth : Nat}
    (again : ∀ t c, Derives o t c (visit o room depth t c)) (fn arg : Term) (c : Counters) :
    Derives o (.app fn arg) c (finish o room depth fn arg c) := by
  unfold finish
  split
  · rename_i name id body
    obtain ⟨u, result, derivation⟩ := contract_derives o name id body arg c
    apply derives_andThen
    · intro s stop
      rw [result] at stop
      cases stop
    · intro v success
      rw [result] at success
      cases success
      exact ⟨u, derivation, again u _⟩
  · exact derives_done o _ _

theorem visit_derives (o : Options) (room depth : Nat) (t : Term) (c : Counters) :
    Derives o t c (visit o room depth t c) := by
  induction room generalizing depth t c with
  | zero =>
      simp only [visit]
      exact .refl t c
  | succ room ih =>
      cases t with
      | hole => exact .refl _ c
      | var name id renamed =>
          simp only [visit]
          split
          · rename_i fresh
            simp only [Bool.and_eq_true, beq_iff_eq, Bool.not_eq_true'] at fresh
            obtain ⟨⟨on, rfl⟩, rfl⟩ := fresh
            exact .free on name c
          · exact derives_done o _ c
      | abs name id body =>
          simp only [visit, Run.map_inside_eq_andThen]
          apply derives_inside_andThen (.body name id) (ih (depth + 1) body c)
          intro u _
          exact derives_done o _ _
      | app fn arg =>
          rw [visit_app]
          apply derives_inside_andThen (.fn arg) (ih (depth + 1) fn c)
          intro fn' _
          apply derives_inside_andThen (.arg fn') (ih (depth + 1) arg _)
          intro arg' _
          exact derives_finish (ih (depth + 1)) fn' arg' _

/-- A part that was reduced to the end is derived from what it was. -/
theorem derivation_of_visit {o : Options} {room depth : Nat} {t u : Term} {c : Counters}
    (success : (visit o room depth t c).result = .ok u) :
    Derivation o t c (visit o room depth t c).events u (visit o room depth t c).counters := by
  have derivation := visit_derives o room depth t c
  rwa [Derives, Run.final_of_ok success] at derivation

/-- How an application is reduced to the end: function and argument are, and then nothing more
happens or a contraction is followed by a reduction of what it yields. -/
theorem visit_app_cases {o : Options} {room depth : Nat} {fn arg u : Term} {c : Counters}
    (success : (visit o (room + 1) depth (.app fn arg) c).result = .ok u) :
    ∃ fn' arg' c₁ c₂ events₁ events₂,
      (visit o room (depth + 1) fn c).result = .ok fn' ∧ Derivation o fn c events₁ fn' c₁ ∧
      (visit o room (depth + 1) arg c₁).result = .ok arg' ∧ Derivation o arg c₁ events₂ arg' c₂ ∧
      (fn'.isAbs = false ∧ u = .app fn' arg' ∨
        ∃ v c₃ events₃, Derivation o (.app fn' arg') c₂ events₃ v c₃ ∧
          (visit o room (depth + 1) v c₃).result = .ok u) := by
  simp only [visit, Run.andThen_eq_ok, Run.inside_eq_ok, Run.counters_inside] at success
  obtain ⟨fn', fnDone, arg', argDone, success⟩ := success
  refine ⟨fn', arg', _, _, _, _, fnDone, derivation_of_visit fnDone, argDone,
    derivation_of_visit argDone, ?_⟩
  split at success
  · rename_i name id body
    obtain ⟨v, result, contraction⟩ := contract_derives o name id body arg' _
    obtain ⟨v', done, success⟩ := Run.andThen_eq_ok.mp success
    rw [result] at done
    cases done
    exact Or.inr ⟨v, _, _, contraction, success⟩
  · rename_i noAbs
    cases success
    refine Or.inl ⟨?_, rfl⟩
    cases fn' with
    | abs name id body => exact absurd rfl (noAbs name id body)
    | _ => rfl

theorem run_derives (o : Options) (c : Counters) (t : Term) : Derives o t c (run o c t) :=
  visit_derives o (o.bound + 1) 0 t c

/-! ## What stays true of the labels -/

namespace Derivation

variable {o : Options} {t u : Term} {c c' : Counters} {events : List Event}

theorem before (derivation : Derivation o t c events u c') : c.Before c' := by
  induction derivation with
  | refl t c => exact .refl c
  | trans _ _ first second => exact first.trans second
  | body name id _ ih => exact ih
  | fn arg _ ih => exact ih
  | arg fn _ ih => exact ih
  | free on name c => exact .afterFree c
  | rename steps => exact steps.before
  | contract steps _ =>
      have before := steps.before
      exact ⟨before.names, before.freeNames, before.lastId⟩

theorem holeFree (derivation : Derivation o t c events u c') (whole : t.HoleFree) :
    u.HoleFree := by
  induction derivation with
  | refl t c => exact whole
  | trans _ _ first second => exact second (first whole)
  | body name id _ ih => exact ih whole
  | fn arg _ ih => exact ⟨ih whole.1, whole.2⟩
  | arg fn _ ih => exact ⟨whole.1, ih whole.2⟩
  | free on name c => trivial
  | rename steps => exact ⟨steps.holeFree whole.1, whole.2⟩
  | contract steps _ => exact (steps.holeFree whole.1).substitute whole.2

/-- Every label was there before or has been handed out since. -/
theorem labelsOf {withVars : Bool} (derivation : Derivation o t c events u c') {l : Label}
    (member : l ∈ u.labelsOf withVars) : l ∈ t.labelsOf withVars ∨ Issued c c' l := by
  induction derivation with
  | refl t c => exact Or.inl member
  | trans first second ihf ihs =>
      rcases ihs member with earlier | issued
      · rcases ihf earlier with earlier | issued
        · exact Or.inl earlier
        · exact Or.inr (issued.mono (.refl _) second.before)
      · exact Or.inr (issued.mono first.before (.refl _))
  | body name id _ ih =>
      simp only [Term.labelsOf, List.mem_cons] at member ⊢
      rcases member with same | inside
      · exact Or.inl (Or.inl same)
      · exact (ih inside).imp_left Or.inr
  | fn arg _ ih =>
      simp only [Term.labelsOf, List.mem_append] at member ⊢
      rcases member with left | right
      · exact (ih left).imp_left Or.inl
      · exact Or.inl (Or.inr right)
  | arg fn _ ih =>
      simp only [Term.labelsOf, List.mem_append] at member ⊢
      rcases member with left | right
      · exact Or.inl (Or.inl left)
      · exact (ih right).imp_left Or.inr
  | free on name c =>
      cases withVars with
      | false => exact Or.inl member
      | true =>
          simp only [Term.labelsOf, if_true, List.mem_singleton] at member
          subst member
          exact Or.inr (.free (Nat.le_refl _) (Nat.lt_succ_self _))
  | rename steps =>
      simp only [Term.labelsOf, List.mem_append, List.mem_cons] at member ⊢
      rcases member with (same | inside) | right
      · exact Or.inl (Or.inl (Or.inl same))
      · exact (steps.labelsOf inside).imp_left fun before => Or.inl (Or.inr before)
      · exact Or.inl (Or.inr right)
  | contract steps _ =>
      simp only [Term.labelsOf, List.mem_append, List.mem_cons]
      rcases Term.labelsOf_substitute member with inside | right
      · rcases steps.labelsOf inside with before | issued
        · exact Or.inl (Or.inl (Or.inr before))
        · exact Or.inr (issued.mono (.refl _) ⟨Nat.le_refl _, Nat.le_refl _, Int.le_refl _⟩)
      · exact Or.inl (Or.inr right)

theorem origin (derivation : Derivation o t c events u c') (l : Label) (member : l ∈ u.labels) :
    l ∈ t.labels ∨ (l.2 ≠ 0 → l.2 < c.lastId) :=
  (derivation.labelsOf member).imp_right Issued.id_lt

/-- Numbers determine names, and new ones are below all that are in use, throughout. -/
theorem numbered (derivation : Derivation o t c events u c') (numbers : c.lastId ≤ 0)
    (numbered : t.Numbered c.lastId) : u.Numbered c'.lastId := by
  induction derivation with
  | refl t c => exact numbered
  | trans first second ihf ihs =>
      exact ihs (Int.le_trans first.before.lastId numbers) (ihf numbers numbered)
  | body name id inside ih =>
      exact numbered.replace_body (ih numbers numbered.body) inside.before.lastId inside.origin
  | fn arg inside ih =>
      exact numbered.replace_fn (ih numbers numbered.fn) inside.before.lastId inside.origin
  | arg fn inside ih =>
      exact numbered.replace_arg (ih numbers numbered.arg) inside.before.lastId inside.origin
  | free on name c =>
      refine ⟨trivial, by simp [Term.labelsOf], ?_, ?_⟩
      · intro l hl m hm _ _
        simp only [Term.labelsOf, if_true, List.mem_singleton] at hl hm
        rw [hl, hm]
      · intro l member
        simp only [Term.labelsOf, if_true, List.mem_singleton] at member
        rw [member]
        exact numbers
  | rename steps => exact steps.numbered_redex numbers numbered
  | contract steps _ => exact (steps.numbered_redex numbers numbered).substitute

end Derivation

end UntypedLambda.Reduction
