import UntypedLambda.Proofs.Reduction.Soundness
import UntypedLambda.Proofs.Token.Word
import Std.Data.String.ToNat

/-! # Reduction keeps the text faithful

Reading a term by its names gives the same as reading it by its numbers, at every step of a
reduction.  Names that are handed out are no words and are handed out once, so no variable that
is there already can come to stand below a binder of a new name. -/
set_option autoImplicit false

namespace UntypedLambda.Reduction

/-! ## Names in use -/

/-- The names that a term may hold: words, and names handed out so far. -/
def Known (c : Counters) (name : String) : Prop :=
  IsWord name ∨ (∃ k < c.names, name = binderName k) ∨ ∃ k < c.freeNames, name = freeName k

instance (c : Counters) (name : String) : Decidable (Known c name) :=
  inferInstanceAs (Decidable (_ ∨ _ ∨ _))

theorem binderName_inj {j k : Nat} : binderName j = binderName k ↔ j = k := by
  rw [binderName, binderName, String.append_right_inj]
  exact Nat.repr_inj

theorem freeName_inj {j k : Nat} : freeName j = freeName k ↔ j = k := by
  rw [freeName, freeName, String.append_right_inj]
  exact Nat.repr_inj

theorem freeName_eq (k : Nat) : freeName k = "X" ++ ("`" ++ toString k) := by
  rw [freeName, ← String.append_assoc]
  rfl

theorem not_isWord_capital (rest : String) : ¬ IsWord ("X" ++ rest) := by
  intro word
  have first := word.1
  rw [String.toList_append] at first
  have lower : isLower 'X' = true := first
  exact absurd lower (by decide)

/-- The second character of a binder's name is a digit, that of a free variable's is not. -/
theorem binderName_ne_freeName (j k : Nat) : binderName j ≠ freeName k := by
  intro same
  rw [freeName_eq, binderName, String.append_right_inj] at same
  have member : '`' ∈ Nat.toDigits 10 j := by
    rw [← String.toList_ofList (l := Nat.toDigits 10 j)]
    change '`' ∈ (toString j).toList
    rw [same, String.toList_append]
    exact List.mem_append_left _ (List.mem_singleton.mpr rfl)
  have digit : '`'.isDigit = true :=
    Nat.isDigit_of_mem_toDigits (by decide) (by decide) member
  exact absurd digit (by decide)

theorem Known.mono {c c' : Counters} {name : String} (known : Known c name)
    (before : c.Before c') : Known c' name := by
  rcases known with word | ⟨k, less, same⟩ | ⟨k, less, same⟩
  · exact Or.inl word
  · exact Or.inr (Or.inl ⟨k, Nat.lt_of_lt_of_le less before.names, same⟩)
  · exact Or.inr (Or.inr ⟨k, Nat.lt_of_lt_of_le less before.freeNames, same⟩)

theorem Issued.known {c c' : Counters} {l : Label} (issued : Issued c c' l) :
    Known c' l.1 := by
  cases issued with
  | @binder k id _ most _ _ => exact Or.inr (Or.inl ⟨k, most, rfl⟩)
  | @free k _ most => exact Or.inr (Or.inr ⟨k, most, rfl⟩)

theorem not_known_binderName {c : Counters} {k : Nat} (least : c.names ≤ k) :
    ¬ Known c (binderName k) := by
  rintro (word | ⟨j, less, same⟩ | ⟨j, _, same⟩)
  · exact not_isWord_capital _ word
  · have := binderName_inj.mp same
    omega
  · exact binderName_ne_freeName k j same

theorem not_known_freeName {c : Counters} {k : Nat} (least : c.freeNames ≤ k) :
    ¬ Known c (freeName k) := by
  rintro (word | ⟨j, _, same⟩ | ⟨j, less, same⟩)
  · rw [freeName_eq] at word
    exact not_isWord_capital _ word
  · exact binderName_ne_freeName j k same.symm
  · have := freeName_inj.mp same
    omega

theorem Issued.not_known {c c' : Counters} {l : Label} (issued : Issued c c' l) :
    ¬ Known c l.1 := by
  cases issued with
  | binder least _ _ _ => exact not_known_binderName least
  | free least _ => exact not_known_freeName least

/-! ## What a derivation keeps of every variable -/

/-- A term that a reducer with these counters may have before it. -/
structure Admitted (c : Counters) (t : Term) : Prop where
  numbers : c.lastId ≤ 0
  numbered : t.Numbered c.lastId
  known : ∀ l ∈ t.labels, Known c l.1

namespace Admitted

variable {c : Counters}

theorem body {name : String} {id : Int} {t : Term} (whole : Admitted c (.abs name id t)) :
    Admitted c t where
  numbers := whole.numbers
  numbered := whole.numbered.body
  known := fun l member => whole.known l (by simp [Term.labelsOf, member])

theorem fn {t arg : Term} (whole : Admitted c (.app t arg)) : Admitted c t where
  numbers := whole.numbers
  numbered := whole.numbered.fn
  known := fun l member => whole.known l (by simp [Term.labelsOf, member])

theorem arg {fn t : Term} (whole : Admitted c (.app fn t)) : Admitted c t where
  numbers := whole.numbers
  numbered := whole.numbered.arg
  known := fun l member => whole.known l (by simp [Term.labelsOf, member])

end Admitted

theorem Derivation.admitted {o : Options} {t u : Term} {c c' : Counters} {events : List Event}
    (derivation : Derivation o t c events u c') (admitted : Admitted c t) : Admitted c' u where
  numbers := Int.le_trans derivation.before.lastId admitted.numbers
  numbered := derivation.numbered admitted.numbers admitted.numbered
  known := by
    intro l member
    rcases derivation.labelsOf member with earlier | issued
    · exact (admitted.known l earlier).mono derivation.before
    · exact issued.known

section Variables
variable {P : List Label → String → Int → Prop} (stable : Term.Stable P)
include stable

theorem Renames.everyVar {wrap : Term → Term} {t u : Term} {c c' : Counters}
    {events : List Event} (steps : Renames wrap t c events u c') (admitted : Admitted c t)
    {scope : List Label} (all : t.EveryVar P scope) : u.EveryVar P scope := by
  induction steps with
  | nil t c => exact all
  | @cons t u v c c' events binder old step rest ih =>
      have numbers := admitted.numbers
      have fresh : ∀ l ∈ t.labels, binderName c.names ≠ l.1 ∧ c.lastId - 1 ≠ l.2 := by
        intro l member
        refine ⟨?_, ?_⟩
        · intro same
          exact not_known_binderName (Nat.le_refl _) (same ▸ admitted.known l member)
        · have := admitted.numbered.low_le l member
          omega
      have after : Admitted c.afterAlpha u := by
        have before := Counters.Before.afterAlpha c
        refine ⟨Int.le_trans before.lastId numbers, admitted.numbered.renamed numbers step, ?_⟩
        intro l member
        rcases step.labelsOf member with earlier | rfl
        · exact (admitted.known l earlier).mono before
        · exact Or.inr (Or.inl ⟨c.names, Nat.lt_succ_self _, rfl⟩)
      apply ih after
      exact step.everyVar stable (by omega) admitted.numbered.binder_ne_zero fresh all

/-- Whatever is stable holds of every variable throughout, below binders of names in use. -/
theorem Derivation.everyVar {o : Options} {t u : Term} {c c' : Counters} {events : List Event}
    (derivation : Derivation o t c events u c') (admitted : Admitted c t) {scope : List Label}
    (around : ∀ l ∈ scope, Known c l.1) (all : t.EveryVar P scope) : u.EveryVar P scope := by
  induction derivation generalizing scope with
  | refl t c => exact all
  | trans first second ihf ihs =>
      apply ihs (first.admitted admitted)
      · exact fun l member => (around l member).mono first.before
      · exact ihf admitted around all
  | body name id _ ih =>
      refine ih admitted.body ?_ all
      intro l member
      rcases List.mem_cons.mp member with rfl | member
      · exact admitted.known (name, id) (by simp [Term.labelsOf])
      · exact around l member
  | fn arg _ ih => exact ⟨ih admitted.fn around all.1, all.2⟩
  | arg fn _ ih => exact ⟨all.1, ih admitted.arg around all.2⟩
  | free on name c =>
      apply stable.free
      intro l member same
      exact not_known_freeName (Nat.le_refl _) (same ▸ around l member)
  | rename steps => exact ⟨steps.everyVar stable admitted.fn.body all.1, all.2⟩
  | @contract name id t u arg c c' events steps apart =>
      have bound : id ≠ 0 :=
        admitted.numbered.fn.binder_ne_zero (name, id) (by simp [Term.labelsOf])
      have inner := steps.everyVar stable admitted.fn.body all.1
      have numbersApart := apart.id_ne steps admitted.numbers admitted.numbered
      refine @Term.EveryVar.substitute P stable [] scope name id arg u bound ?_ all.2 inner
      intro l hl m hm
      refine ⟨?_, numbersApart l hl m hm⟩
      intro same
      -- a binder that still has a name of the argument would have been renamed to it
      have issued := apart l hl (Term.mem_names.mpr ⟨m, hm, same.symm⟩)
      exact issued.not_known (same ▸ admitted.arg.known m hm)

end Variables

/-! ## The terms that a run shows -/

/-- The property `P` holds of every term shown, given the lowest number in use at that moment,
which goes from the first number to the last. -/
inductive Shown (P : Int → Term → Prop) : Int → List Event → Int → Prop where
  | nil (low : Int) : Shown P low [] low
  | alpha {low least : Int} {root : Term} {events : List Event} (binder : Term)
      (fresh old : String) (holds : P (low - 1) root) (rest : Shown P (low - 1) events least) :
      Shown P low (.alpha root binder fresh old :: events) least
  | beta {low least : Int} {root : Term} {events : List Event} (arg fn : Term)
      (holds : P low root) (rest : Shown P low events least) :
      Shown P low (.beta root arg fn :: events) least
  | free {low least : Int} {events : List Event} (old fresh : String)
      (rest : Shown P low events least) : Shown P low (.free old fresh :: events) least

namespace Shown

variable {P Q : Int → Term → Prop} {low middle least : Int} {events events' : List Event}

theorem append (first : Shown P low events middle) (second : Shown P middle events' least) :
    Shown P low (events ++ events') least := by
  induction first with
  | nil low => exact second
  | alpha binder fresh old holds _ ih => exact .alpha binder fresh old holds (ih second)
  | beta arg fn holds _ ih => exact .beta arg fn holds (ih second)
  | free old fresh _ ih => exact .free old fresh (ih second)

theorem inside {wrap : Term → Term}
    (shown : Shown (fun low root => P low (wrap root)) low events least) :
    Shown P low (events.map (Event.inside wrap)) least := by
  induction shown with
  | nil low => exact .nil low
  | alpha binder fresh old holds _ ih => exact .alpha binder fresh old holds ih
  | beta arg fn holds _ ih => exact .beta arg fn holds ih
  | free old fresh _ ih => exact .free old fresh ih

theorem mono (implies : ∀ low root, P low root → Q low root)
    (shown : Shown P low events least) : Shown Q low events least := by
  induction shown with
  | nil low => exact .nil low
  | alpha binder fresh old holds _ ih => exact .alpha binder fresh old (implies _ _ holds) ih
  | beta arg fn holds _ ih => exact .beta arg fn (implies _ _ holds) ih
  | free old fresh _ ih => exact .free old fresh ih

end Shown

theorem Renames.shown {wrap : Term → Term} {t u : Term} {c c' : Counters} {events : List Event}
    (steps : Renames wrap t c events u c') :
    Shown (fun low root => ∃ v c'' events', root = wrap v ∧ c''.lastId = low ∧
      Renames wrap t c events' v c'') c.lastId events c'.lastId := by
  induction steps with
  | nil t c => exact .nil _
  | @cons t u v c c' events binder old step rest ih =>
      refine .alpha binder _ old ?_ (ih.mono ?_)
      · exact ⟨u, c.afterAlpha, _, rfl, rfl, .cons binder old step (.nil u c.afterAlpha)⟩
      · rintro low root ⟨v, c'', events', rfl, number, steps⟩
        exact ⟨v, c'', _, rfl, number, .cons binder old step steps⟩

/-- A term that a derivation shows is derived as well. -/
theorem Derivation.shown {o : Options} {t u : Term} {c c' : Counters} {events : List Event}
    (derivation : Derivation o t c events u c') :
    Shown (fun low root => ∃ c'' events', c''.lastId = low ∧ Derivation o t c events' root c'')
      c.lastId events c'.lastId := by
  induction derivation with
  | refl t c => exact .nil _
  | trans first second ihf ihs =>
      refine ihf.append (ihs.mono ?_)
      rintro low root ⟨c'', events', number, derivation⟩
      exact ⟨c'', _, number, first.trans derivation⟩
  | body name id _ ih =>
      refine (ih.mono ?_).inside
      rintro low root ⟨c'', events', number, derivation⟩
      exact ⟨c'', _, number, .body name id derivation⟩
  | fn arg _ ih =>
      refine (ih.mono ?_).inside
      rintro low root ⟨c'', events', number, derivation⟩
      exact ⟨c'', _, number, .fn arg derivation⟩
  | arg fn _ ih =>
      refine (ih.mono ?_).inside
      rintro low root ⟨c'', events', number, derivation⟩
      exact ⟨c'', _, number, .arg fn derivation⟩
  | free on name c => exact .free name _ (.nil _)
  | rename steps =>
      refine steps.shown.mono ?_
      rintro low root ⟨v, c'', events', rfl, number, steps⟩
      exact ⟨c'', events', number, .rename steps⟩
  | @contract name id t u arg c c' events steps apart =>
      refine (steps.shown.mono ?_).append ?_
      · rintro low root ⟨v, c'', events', rfl, number, steps⟩
        exact ⟨c'', events', number, .rename steps⟩
      · exact .beta arg _ ⟨c'.afterBeta, _, rfl, .contract steps apart⟩ (.nil _)

/-! ## Runs -/

theorem Derivation.coherent {o : Options} {t u : Term} {c c' : Counters} {events : List Event}
    (derivation : Derivation o t c events u c') (admitted : Admitted c t)
    (bound : t.EveryVar Term.BoundFaithful []) : u.Coherent c'.lastId where
  toNumbered := (derivation.admitted admitted).numbered
  owned := by
    have stays := derivation.everyVar Term.boundFaithful_stable admitted (by simp) bound
    exact stays.mono fun scope name id faithful => faithful.owned

theorem Derivation.faithful {o : Options} {t u : Term} {c c' : Counters} {events : List Event}
    (derivation : Derivation o t c events u c') (admitted : Admitted c t)
    (faithful : t.Faithful) : u.Faithful := by
  obtain ⟨bound, free⟩ := Term.faithful_iff.mp faithful
  apply Term.faithful_iff.mpr
  exact ⟨derivation.everyVar Term.boundFaithful_stable admitted (by simp) bound,
    derivation.everyVar Term.uncaptured_stable admitted (by simp) free⟩

/-- Every term that a reduction shows, and the term at the end, be it the result or what was
reached at the depth bound, is coherent at its moment and says the same by its names as by its
numbers. -/
theorem run_faithful {o : Options} {c : Counters} {t : Term} (numbers : c.lastId ≤ 0)
    (coherent : t.Coherent c.lastId) (faithful : t.Faithful)
    (known : ∀ name ∈ t.names, Known c name) :
    Shown (fun low root => root.Coherent low ∧ root.Faithful) c.lastId (run o c t).events
        (run o c t).counters.lastId ∧
      (run o c t).final.Coherent (run o c t).counters.lastId ∧ (run o c t).final.Faithful := by
  have admitted : Admitted c t :=
    ⟨numbers, coherent.toNumbered, fun l member => known l.1 (Term.mem_names.mpr ⟨l, member, rfl⟩)⟩
  have bound := (Term.faithful_iff.mp faithful).1
  have derivation : Derivation o t c _ _ _ := run_derives o c t
  refine ⟨derivation.shown.mono ?_, derivation.coherent admitted bound,
    derivation.faithful admitted faithful⟩
  rintro low root ⟨c', events, rfl, towards⟩
  exact ⟨towards.coherent admitted bound, towards.faithful admitted faithful⟩

/-- `(λx. λX0. x) X0` in a reducer that has handed out `X0` and minus one. -/
theorem run_faithful_second_name :
    Term.Faithful (.app (.abs "x" 1 (.abs "X0" (-1) (.var "x" 1 false))) (.var "X0" 0 false)) ∧
      Known { names := 1, lastId := -1 } "X0" ∧
      Term.Coherent (-2) (.abs "X1" (-2) (.var "X0" 0 false)) ∧
      Term.Faithful (.abs "X1" (-2) (.var "X0" 0 false)) := by
  have result : (run {} { names := 1, lastId := -1 } (.app
      (.abs "x" 1 (.abs "X0" (-1) (.var "x" 1 false))) (.var "X0" 0 false))).result =
        .ok (.abs "X1" (-2) (.var "X0" 0 false)) := rfl
  have ending := (run_faithful (o := {}) (c := { names := 1, lastId := -1 })
    (t := .app (.abs "x" 1 (.abs "X0" (-1) (.var "x" 1 false))) (.var "X0" 0 false))
    (by decide) (by decide) (by decide) (by decide)).2
  rw [Run.final_of_ok result] at ending
  exact ⟨by decide, by decide, ending⟩

end UntypedLambda.Reduction
