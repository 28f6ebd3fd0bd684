import UntypedLambda.Proofs.Session.Mirror

/-! # How old an entry of the table is

The fingerprint that is stored for a name is made when the name is bound and not again.  It is
that of the normal form which the definition had then, and it stays right as long as nothing
that the definition depends on is changed.

Main statements: `fingerprint_of_definition`, and `entry_outdated` where it has gone wrong. -/
set_option autoImplicit false

namespace UntypedLambda.Session

open Relation Expansion

/-- A normal form depends on the depth bound and on the definitions that the term leads to. -/
theorem normalForm_congr {s s' : Session} {t : Term}
    (bound : s.options.bound = s'.options.bound)
    (same : ∀ x, Needs s.lookup t x → s.lookup x = s'.lookup x) :
    s.normalForm t = s'.normalForm t := by
  unfold normalForm Expansion.run
  rw [visit_congr same, bound]

/-- The second session comes after the first, in which the definition of `name` was touched for
the last time: at the start, or by the change that led to it. -/
inductive LastTouched (name : String) : Session → Session → Prop where
  | new (options : Options) : LastTouched name (.new options) (.new options)
  | here {s s' : Session} (change : Change (some name) s s') : LastTouched name s' s'
  | later {s₀ s s' : Session} {touched : Option String} (before : LastTouched name s₀ s)
      (change : Change touched s s') (other : touched ≠ some name) : LastTouched name s₀ s'

theorem exists_lastTouched {s : Session} (reachable : Reachable s) (name : String) :
    ∃ s₀, LastTouched name s₀ s := by
  apply @Reachable.invariant (fun s => ∃ s₀, LastTouched name s₀ s)
    (fun options => ⟨_, .new options⟩) ?_ s reachable
  intro touched s s' change before
  obtain ⟨s₀, before⟩ := before
  by_cases here : touched = some name
  · subst here
    exact ⟨s', .here change⟩
  · exact ⟨s₀, .later before change here⟩

/-! ## What a change leaves of other names -/

theorem Change.lookup_eq {touched : Option String} {s s' : Session}
    (change : Change touched s s') {name : String} (other : touched ≠ some name) :
    s'.lookup name = s.lookup name := by
  cases change with
  | keep bindings _ _ => exact lookup_eq_of_bindings bindings name
  | bind bindings _ changed _ =>
      rw [lookup_bind, if_neg fun same => other (congrArg some same)]
      exact lookup_eq_of_bindings bindings name
  | unbind _ => rw [lookup_unbind, if_neg fun same => other (congrArg some same)]

theorem Change.fingerprints_eq {touched : Option String} {s s' : Session}
    (change : Change touched s s') {name : String} (other : touched ≠ some name) :
    s'.equivalences.fingerprints[name]? = s.equivalences.fingerprints[name]? := by
  cases change with
  | keep _ equivalences _ => rw [equivalences]
  | bind _ equivalences changed _ =>
      rw [fingerprints_bind, if_neg fun same => other (congrArg some same), equivalences]
  | unbind _ => rw [fingerprints_unbind, if_neg fun same => other (congrArg some same)]

/-! ## The entry of a name -/

/-- The entry of `name` is that of the normal form under the present definitions. -/
def Current (s : Session) (name : String) : Prop :=
  ∀ t, s.lookup name = some t →
    s.equivalences.fingerprints[name]? = some (s.normalForm t).structureFingerprint

/-- All names of the prelude are entered when all are bound. -/
theorem current_new (options : Options) (name : String) : Current (new options) name := by
  intro t found
  have untouched : Untouched (loaded options) (new options) := untouched_new options
  have lookup : ∀ x, (loaded options).lookup x = (new options).lookup x :=
    fun x => (lookup_eq_of_bindings untouched.bindings x).symm
  have known : (loaded options).bindings[name]? = some t := (lookup name).trans found
  have bound : name ∈ Prelude.items.flatMap (·.names) := by
    rw [← mem_loaded options, Std.TreeMap.mem_iff_isSome_getElem?, known]
    rfl
  have same : (loaded options).normalForm t = (new options).normalForm t :=
    normalForm_congr (by rw [untouched.options]) fun x _ => lookup x
  rw [equivalences_new, fingerprints_enterAll, if_pos bound,
    Std.TreeMap.getD_eq_getD_getElem?, known, Option.getD_some, same]

/-- A name that has just been bound is entered as it is now. -/
theorem Change.current {s s' : Session} {name : String} (change : Change (some name) s s') :
    Current s' name := by
  intro t found
  cases change with
  | @bind _ between bindings equivalences _ u read =>
      rw [lookup_bind, if_pos rfl] at found
      cases found
      rw [fingerprints_bind, if_pos rfl]
  | unbind bound =>
      rw [lookup_unbind, if_pos rfl] at found
      cases found

theorem LastTouched.entry {name : String} {s₀ s : Session} (last : LastTouched name s₀ s) {t : Term}
    (found : s.lookup name = some t) : s₀.lookup name = some t ∧
      s.equivalences.fingerprints[name]? = some (s₀.normalForm t).structureFingerprint := by
  induction last with
  | new options => exact ⟨found, current_new options name t found⟩
  | here change => exact ⟨found, change.current t found⟩
  | later _ change other ih =>
      rw [change.lookup_eq other] at found
      rw [change.fingerprints_eq other]
      exact ih found

/-- The entry of a bound name is that of its normal form in the session in which its definition
was last touched, and the name is equivalent to the terms with that fingerprint.  It is the
normal form under the present definitions exactly if that has kept the fingerprint, as it has
when the depth bound and all the definition depends on are the same as then. -/
theorem fingerprint_of_definition {s : Session} (reachable : Reachable s) {name : String} {t : Term}
    (found : s.lookup name = some t) : (∃ s₀, LastTouched name s₀ s) ∧
    ∀ s₀, LastTouched name s₀ s →
      s₀.lookup name = some t ∧
      s.equivalences.fingerprints[name]? = some (s₀.normalForm t).structureFingerprint ∧
      (∀ u : Term, name ∈ s.equivalents u ↔
        u.structureFingerprint = (s₀.normalForm t).structureFingerprint) ∧
      (Current s name ↔ (s₀.normalForm t).structureFingerprint =
        (s.normalForm t).structureFingerprint) ∧
      (s₀.options.bound = s.options.bound →
        (∀ x, Needs s₀.lookup t x → s₀.lookup x = s.lookup x) → Current s name) := by
  refine ⟨exists_lastTouched reachable name, ?_⟩
  intro s₀ last
  obtain ⟨before, entry⟩ := last.entry found
  have current : Current s name ↔ (s₀.normalForm t).structureFingerprint =
      (s.normalForm t).structureFingerprint := by
    constructor
    · intro now
      have stored := now t found
      rw [entry] at stored
      exact Option.some.inj stored
    · intro same u found'
      cases found.symm.trans found'
      rw [entry, same]
  refine ⟨before, entry, ?_, current, ?_⟩
  · intro u
    rw [mem_equivalents reachable.mirrored, entry, Option.some.injEq, eq_comm]
  · intro bound same
    rw [current, normalForm_congr bound same]

/-! ## A name bound before what it refers to -/

theorem lastTouched_reference (options : Options) :
    LastTouched "b" (withReference options) (withLateDefinition options) :=
  .later (.here (change_define (read_a (new options)) "b"))
    (change_define (read_identity (withReference options)) "a") (by decide)

theorem normalForm_eq {s : Session} {t e u : Term}
    (expanded : (Expansion.run s.lookup Bound.default t).result = .ok e)
    (reduced : (Reduction.run { bound := s.options.bound } {} e).result = .ok u) :
    s.normalForm t = u := by
  unfold normalForm
  rw [expanded]
  dsimp only
  rw [reduced]

/-- When `b` was bound, `a` stood for itself. -/
theorem normalForm_withReference :
    (withReference {}).normalForm (.var "a" 0 false) = .var "a" 0 false := by
  obtain ⟨s, sameOptions, missing, _, defined⟩ := withReference_eq {}
  have options : (withReference {}).options = {} := by
    rw [defined]
    exact sameOptions
  have missing : (withReference {}).lookup "a" = none := by
    rw [defined, lookup_bind, if_neg (by decide)]
    exact missing
  have expanded : Expansion.run (withReference {}).lookup Bound.default (.var "a" 0 false) =
      .done (.var "a" 0 false) :=
    visit_eq_done trivial (fun _ => missing) (by decide)
  exact normalForm_eq (congrArg Run.result expanded) (by rw [options]; rfl)

theorem normalForm_withLateDefinition : ∃ id, (withLateDefinition {}).normalForm
    (.var "a" 0 false) = .abs "x" id (.var "x" id false) := by
  obtain ⟨id, found, _, missing⟩ := lookup_withLateDefinition {}
  have expanded : (Expansion.run (withLateDefinition {}).lookup Bound.default
      (.var "a" 0 false)).result = .ok (.abs "x" id (.var "x" id false)) :=
    expansion_identity found missing (Bound.default - 2) 0
  exact ⟨id, normalForm_eq expanded (by rw [options_withLateDefinition]; rfl)⟩

/-- The entry of `b` is still that of a bare name, while the one of `a` is right. -/
theorem fingerprint_of_definition_reference : Reachable (withLateDefinition {}) ∧
    (withLateDefinition {}).lookup "b" = some (.var "a" 0 false) ∧
    LastTouched "b" (withReference {}) (withLateDefinition {}) ∧
    "b" ∈ (withLateDefinition {}).equivalents (.var "a" 0 false) ∧
    Current (withLateDefinition {}) "a" := by
  have reachable := reachable_withLateDefinition {}
  obtain ⟨_, foundA, foundB, _⟩ := lookup_withLateDefinition {}
  have last := lastTouched_reference {}
  have lastA : LastTouched "a" (withLateDefinition {}) (withLateDefinition {}) :=
    .here (change_define (read_identity (withReference {})) "a")
  refine ⟨reachable, foundB, last, ?_, ?_⟩
  · refine (((fingerprint_of_definition reachable foundB).2 _ last).2.2.1 _).mpr ?_
    rw [normalForm_withReference]
  · exact ((fingerprint_of_definition reachable foundA).2 _ lastA).2.2.2.2 rfl fun _ _ => rfl

/-- After `b = a` and `a = λx. x` the normal form of `b` is `λx. x`, but the table has it under
another fingerprint, and `b` is not among the names equivalent to `λx. x`. -/
theorem entry_outdated : Reachable (withLateDefinition {}) ∧
    (withLateDefinition {}).lookup "b" = some (.var "a" 0 false) ∧
    ((withLateDefinition {}).normalForm (.var "a" 0 false)).text = "(λx. x)" ∧
    (withLateDefinition {}).equivalences.fingerprints["b"]? ≠
      some ((withLateDefinition {}).normalForm (.var "a" 0 false)).structureFingerprint ∧
    "b" ∉ (withLateDefinition {}).equivalents
      ((withLateDefinition {}).normalForm (.var "a" 0 false)) := by
  have reachable := reachable_withLateDefinition {}
  obtain ⟨_, _, found, _⟩ := lookup_withLateDefinition {}
  obtain ⟨id, normal⟩ := normalForm_withLateDefinition
  obtain ⟨_, entry⟩ := (lastTouched_reference {}).entry found
  rw [normalForm_withReference] at entry
  have numberless : (Term.abs "x" id (.var "x" id false)).structureFingerprint =
      (Term.abs "x" 0 (.var "x" 0 false)).structureFingerprint := rfl
  have differ : some (Term.var "a" 0 false).structureFingerprint ≠
      some (Term.abs "x" 0 (.var "x" 0 false)).structureFingerprint := by
    decide +kernel
  rw [mem_equivalents reachable.mirrored, normal, entry, numberless]
  exact ⟨reachable, found, rfl, differ, differ⟩

end UntypedLambda.Session
