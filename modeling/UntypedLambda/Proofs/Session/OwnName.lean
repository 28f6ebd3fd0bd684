import UntypedLambda.Proofs.Bound
import UntypedLambda.Proofs.Reduction.FreeRenaming
import UntypedLambda.Proofs.Session.BindingStatements
import UntypedLambda.Proofs.Session.Meanings
import UntypedLambda.Proofs.Session.Staleness
import UntypedLambda.Proofs.Session.Transcript

/-! # A name and its own definition

A definition is brought to its normal form twice: when its name is entered into the equivalence
table, and when the name is evaluated.  The table expands within the default bound and renames
nothing; an evaluation expands within the bound of the session, begins one level above the
definition, and may rename free variables.  So a name need not be equivalent to its own value.
It is if nothing is renamed and the definition can be expanded within the default bound.

Main statements: `evaluate_own_name`, and `own_name_missing` where renaming sets the two apart. -/
set_option autoImplicit false

namespace UntypedLambda.Session

/-! ## The last note of an evaluation -/

section
variable {s : Session}

theorem reduceNotes_of_ok {t u : Term}
    (success : (Reduction.run s.options.reduction {} t).result = .ok u) :
    ∃ earlier, s.reduceNotes t = earlier ++ [s.resultNote u] := by
  unfold reduceNotes Reduction.Run.toExcept
  dsimp only
  rw [success]
  exact ⟨_, rfl⟩

theorem termNotes_of_ok {t e u : Term}
    (expanded : (Expansion.run s.lookup s.options.bound t).result = .ok e)
    (reduced : (Reduction.run s.options.reduction {} e).result = .ok u) :
    ∃ earlier, s.termNotes t = earlier ++ [s.resultNote u] := by
  obtain ⟨earlier, noted⟩ := reduceNotes_of_ok reduced
  unfold termNotes Expansion.Run.toExcept
  dsimp only
  rw [expanded]
  dsimp only [Except.mapError]
  rw [noted, ← List.append_assoc, ← List.cons_append]
  exact ⟨_, rfl⟩

/-- An evaluation that succeeds notes last what the answer is, and what it is equivalent to. -/
theorem log_evaluate_of_ok {input : String} {u : Term} (success : (s.evaluate input).1 = .ok u) :
    ∃ before : Log, (s.evaluate input).2.log = before.write (s.resultNote u) := by
  obtain ⟨t, e, read, expanded, reduced⟩ := evaluate_eq_ok.mp success
  obtain ⟨options, bindings⟩ := read_keeps s input
  have equivalences := equivalences_read s input
  have logged := log_answer s (.call (.evaluate input))
  have notes : s.notes (.call (.evaluate input)) = s.evaluateNotes input := rfl
  rw [notes, evaluateNotes] at logged
  generalize s.read input = found at read options bindings equivalences logged
  obtain ⟨result, after⟩ := found
  cases read
  have lookup : after.lookup = s.lookup := funext (lookup_eq_of_bindings bindings)
  rw [← options, ← lookup] at expanded
  rw [← options] at reduced
  obtain ⟨earlier, noted⟩ := termNotes_of_ok expanded reduced
  have last : after.resultNote u = s.resultNote u := by
    unfold resultNote equivalents
    rw [options, equivalences]
  dsimp only at logged
  rw [noted, last, ← List.append_assoc, Log.writeAll_append] at logged
  exact ⟨_, logged⟩

end

/-! ## The definition of a name -/

theorem exists_bind_of_define {s s' : Session} {name source : String}
    (defined : s.define name source = (.ok (), s')) :
    ∃ (s₀ : Session) (t : Term), SameState s₀ s ∧ s' = s₀.bind name t := by
  obtain ⟨s₀, same, _, outcome⟩ := define_eq s name source
  rw [defined] at outcome
  cases read : (s.read source).1 with
  | error e =>
      rw [read] at outcome
      cases outcome
  | ok t =>
      rw [read] at outcome
      exact ⟨s₀, t, same, congrArg Prod.snd outcome⟩

theorem read_identifier {s : Session} (reachable : Reachable s) {name : String}
    (isIdentifier : IsIdentifier name) : (s.read name).1 = .ok (.var name 0 false) := by
  obtain ⟨ledger, sound⟩ := reachable.sound
  have positive : 0 < s.nextId := sound.next ▸ ledger.pos
  exact read_of_shows positive (Shows.identifier isIdentifier).term rfl

/-- A name is expanded by its definition, which stands one level further down. -/
theorem visit_of_expanded_name {definitions : String → Option Term} {name : String} {t e : Term}
    (found : definitions name = some t) {bound : Nat}
    (success : (Expansion.run definitions bound (.var name 0 false)).result = .ok e) :
    (Expansion.visit definitions bound 1 t).result = .ok e := by
  simp only [Expansion.run, Expansion.visit, found] at success
  exact Expansion.Run.inside_eq_ok.mp success

/-- Within the default bound the definition expands to the same term, unless the bound of the
session is larger by more than the one level. -/
theorem expansion_within_default {definitions : String → Option Term} {bound : Nat} {t e : Term}
    (success : (Expansion.visit definitions bound 1 t).result = .ok e) :
    (Expansion.run definitions Bound.default t).result = .ok e ∨
      Bound.default + 1 < bound ∧
        ∀ e', (Expansion.run definitions Bound.default t).result ≠ .ok e' := by
  by_cases le : bound ≤ Bound.default + 1
  · rw [Expansion.run, Expansion.visit_eq_of_ok le success 0]
    exact Or.inl success
  · have larger : Bound.default + 1 < bound := Nat.lt_of_not_le le
    cases result : (Expansion.run definitions Bound.default t).result with
    | error stop =>
        refine Or.inr ⟨larger, ?_⟩
        rintro e' ⟨⟩
    | ok e' =>
        rw [Expansion.visit_eq_of_ok (Nat.le_of_lt larger) result 1] at success
        exact Or.inl (result.symm.trans success)

theorem normalForm_of_not_expanded {s : Session} {t : Term}
    (failure : ∀ e, (Expansion.run s.lookup Bound.default t).result ≠ .ok e) :
    s.normalForm t = t := by
  unfold normalForm
  cases result : (Expansion.run s.lookup Bound.default t).result with
  | error stop => rfl
  | ok e => exact absurd result (failure e)

/-! ## Entered and evaluated -/

/-- Without free variables there is nothing to rename. -/
theorem run_of_closed {renameFree : Bool} {bound : Nat} {t : Term}
    (numbers : Reduction.Numbers {} t) (still : renameFree = false ∨ t.freeNames = []) :
    Reduction.run ⟨renameFree, bound⟩ {} t = Reduction.run ⟨false, bound⟩ {} t := by
  rcases still with rfl | closed
  · rfl
  · have none : ∀ name ∈ t.freeNames, False := by simp [closed]
    have settled : t.AllVars Reduction.Settled :=
      (Term.allVars_of_freeNames none).mono fun _ _ _ bound free => (bound free).elim
    exact Reduction.visit_eq_of_settled _ _ _ 0 numbers settled

/-- The normal form of a definition against the result of an evaluation, where both expand the
definition alike. -/
theorem normalForm_of_reduced {s : Session} {t e u : Term} (numbers : Reduction.Numbers {} e)
    (unmarked : e.AllVars Term.Unmarked)
    (within : (Expansion.run s.lookup Bound.default t).result = .ok e)
    (reduced : (Reduction.run s.options.reduction {} e).result = .ok u) :
    (s.options.renameFree = false ∨ e.freeNames = [] → s.normalForm t = u) ∧
      (s.options.renameFree = true →
        (u.mapFree (Reduction.restore e.freeNames)).idReading [] =
          (s.normalForm t).idReading []) := by
  rw [Options.reduction] at reduced
  constructor
  · intro still
    rw [run_of_closed numbers still] at reduced
    exact normalForm_eq within reduced
  · intro on
    rw [on] at reduced
    obtain ⟨v, plain, restored⟩ := Reduction.exists_run_of_renamed numbers unmarked reduced
    rw [normalForm_eq within plain, restored]

/-- When a name has been defined, its evaluation ends with a note of the names equivalent to the
answer, and the name is among them exactly if the answer has the fingerprint of the normal form
that was entered.  That form is the answer itself if no free variable was renamed; else it reads
as the answer with the old names put back.  Only a bound above the default one can make a
difference beside that: if it alone lets the definition expand, the definition was entered as it
stands. -/
theorem evaluate_own_name {s s' : Session} (reachable : Reachable s)
    (shown : s.options.showEquivalent = true) {name source : String}
    (isIdentifier : IsIdentifier name) (defined : s.define name source = (.ok (), s'))
    {u : Term} (success : (s'.evaluate name).1 = .ok u) : s'.options = s.options ∧
    ∃ t e, s'.lookup name = some t ∧
      (Expansion.run s'.lookup s'.options.bound (.var name 0 false)).result = .ok e ∧
      (∃ before : Log,
        (s'.evaluate name).2.log = before.write (.result u (s'.equivalents u))) ∧
      (name ∈ s'.equivalents u ↔
        u.structureFingerprint = (s'.normalForm t).structureFingerprint) ∧
      ((Expansion.run s'.lookup Bound.default t).result = .ok e ∧
          (s'.options.renameFree = false ∨ e.freeNames = [] →
            s'.normalForm t = u ∧ name ∈ s'.equivalents u) ∧
          (s'.options.renameFree = true →
            (u.mapFree (Reduction.restore e.freeNames)).idReading [] =
              (s'.normalForm t).idReading []) ∨
        Bound.default + 1 < s'.options.bound ∧
          (∀ e', (Expansion.run s'.lookup Bound.default t).result ≠ .ok e') ∧
          s'.normalForm t = t) := by
  have reachable' : Reachable s' := by
    have after := Reachable.define reachable name source
    rwa [defined] at after
  obtain ⟨s₀, t, same, bound⟩ := exists_bind_of_define defined
  have options : s'.options = s.options := bound ▸ same.options
  have found : s'.lookup name = some t := by
    rw [bound, lookup_bind, if_pos rfl]
  have entered : s'.equivalences.fingerprints[name]? =
      some (s'.normalForm t).structureFingerprint := by
    rw [bound, fingerprints_bind, if_pos rfl]
  have isEquivalent : name ∈ s'.equivalents u ↔
      u.structureFingerprint = (s'.normalForm t).structureFingerprint := by
    rw [mem_equivalents reachable'.mirrored, entered, Option.some.injEq, eq_comm]
  obtain ⟨before, logged⟩ := log_evaluate_of_ok success
  rw [resultNote, options, shown, if_pos rfl] at logged
  obtain ⟨_, e, read, expanded, reduced⟩ := evaluate_eq_ok.mp success
  cases (read_identifier reachable' isIdentifier).symm.trans read
  refine ⟨options, t, e, found, expanded, ⟨before, logged⟩, isEquivalent, ?_⟩
  rcases expansion_within_default (visit_of_expanded_name found expanded) with within | failed
  · obtain ⟨ledger, sound⟩ := reachable'.sound
    obtain ⟨_, _, spliced⟩ := spliced_of_evaluate sound read expanded
    have numbers : Reduction.Numbers {} e := ⟨Int.le_refl 0, spliced.numbered⟩
    have unmarked : e.AllVars Term.Unmarked := by
      apply spliced.marked.mono
      intro _ _ _ marked
      apply Bool.eq_false_iff.mpr
      intro mark
      obtain ⟨_, _, less, _⟩ := marked mark
      exact Nat.not_lt_zero _ less
    obtain ⟨still, renamed⟩ := normalForm_of_reduced numbers unmarked within reduced
    refine Or.inl ⟨within, ?_, renamed⟩
    intro nothing
    have value := still nothing
    exact ⟨value, isEquivalent.mpr (by rw [value])⟩
  · exact Or.inr ⟨failed.1, failed.2, normalForm_of_not_expanded failed.2⟩

/-! ## A name for `x x` -/

theorem read_application (s : Session) :
    (s.read "x x").1 = .ok (.app (.var "x" 0 false) (.var "x" 0 false)) := by
  have tokens : (Token.scan "x x").tokens =
      [⟨.ident, "x", 1, 1, 1⟩, ⟨.ident, "x", 1, 3, 1⟩, ⟨.newline, "<newline>", 1, 4, 0⟩,
        ⟨.eof, "", 1, 4, 0⟩] := by
    decide +kernel
  rw [read_eq, tokens]
  rfl

theorem define_application (options : Options) :
    ∃ s', (new options).define "w" "x x" = (.ok (), s') ∧ Reachable s' ∧ s'.options = options ∧
      s'.lookup "w" = some (.app (.var "x" 0 false) (.var "x" 0 false)) ∧
      s'.lookup "x" = none ∧
      s'.equivalences.fingerprints["w"]? = some (s'.normalForm
        (.app (.var "x" 0 false) (.var "x" 0 false))).structureFingerprint := by
  have reachable : Reachable ((new options).define "w" "x x").2 := .define (.new options) "w" "x x"
  obtain ⟨s₀, same, _, defined⟩ := define_eq (new options) "w" "x x"
  rw [read_application] at defined
  rw [defined] at reachable
  refine ⟨_, defined, reachable, same.options.trans (options_new options), ?_, ?_, ?_⟩
  · rw [lookup_bind, if_pos rfl]
  · rw [lookup_bind, if_neg (by decide), lookup_eq_of_bindings same.bindings,
      lookup_new options (by decide)]
  · rw [fingerprints_bind, if_pos rfl]

theorem expansion_application {definitions : String → Option Term}
    (found : definitions "w" = some (.app (.var "x" 0 false) (.var "x" 0 false)))
    (missing : definitions "x" = none) :
    (Expansion.run definitions Bound.default (.var "w" 0 false)).result =
        .ok (.app (.var "x" 0 false) (.var "x" 0 false)) ∧
      (Expansion.run definitions Bound.default
          (.app (.var "x" 0 false) (.var "x" 0 false))).result =
        .ok (.app (.var "x" 0 false) (.var "x" 0 false)) := by
  constructor <;>
    simp [Expansion.run, Bound.default, Expansion.visit, found, missing, Expansion.Run.andThen,
      Expansion.Run.map, Expansion.Run.inside, Expansion.Run.done, Except.map]

/-- Where nothing is renamed `w` is among the names equivalent to its value. -/
theorem evaluate_own_name_application : Reachable (new {}) ∧ IsIdentifier "w" ∧
    ∃ s', (new {}).define "w" "x x" = (.ok (), s') ∧
      (s'.evaluate "w").1 = .ok (.app (.var "x" 0 false) (.var "x" 0 false)) ∧
      "w" ∈ s'.equivalents (.app (.var "x" 0 false) (.var "x" 0 false)) := by
  have identifier : IsIdentifier "w" := by decide
  obtain ⟨s', defined, reachable, options, found, missing, _⟩ := define_application {}
  obtain ⟨expanded, plain⟩ := expansion_application found missing
  have success : (s'.evaluate "w").1 = .ok (.app (.var "x" 0 false) (.var "x" 0 false)) :=
    evaluate_eq_ok.mpr ⟨_, _, read_identifier reachable identifier,
      by rw [options]; exact expanded, by rw [options]; rfl⟩
  refine ⟨.new {}, identifier, s', defined, success, ?_⟩
  obtain ⟨_, _, _, _, _, _, _, ⟨_, still, _⟩ | ⟨larger, _⟩⟩ := evaluate_own_name (.new {})
    (congrArg Options.showEquivalent (options_new {})) identifier defined success
  · exact (still (Or.inl (congrArg Options.renameFree options))).2
  · rw [options] at larger
    exact absurd larger (by decide)

/-- With renaming on the two occurrences of `x` get two names, and `w` is not among the names
equivalent to its value. -/
theorem own_name_missing : Reachable (new { renameFree := true }) ∧
    (new { renameFree := true }).options.showEquivalent = true ∧ IsIdentifier "w" ∧
    ∃ s', (new { renameFree := true }).define "w" "x x" = (.ok (), s') ∧
      (s'.evaluate "w").1 = .ok (.app (.var "X`0" 0 true) (.var "X`1" 0 true)) ∧
      s'.normalForm (.app (.var "x" 0 false) (.var "x" 0 false)) =
        .app (.var "x" 0 false) (.var "x" 0 false) ∧
      "w" ∉ s'.equivalents (.app (.var "X`0" 0 true) (.var "X`1" 0 true)) := by
  have identifier : IsIdentifier "w" := by decide
  have shown := congrArg Options.showEquivalent (options_new { renameFree := true })
  obtain ⟨s', defined, reachable, options, found, missing, entered⟩ :=
    define_application { renameFree := true }
  obtain ⟨expanded, plain⟩ := expansion_application found missing
  have success : (s'.evaluate "w").1 = .ok (.app (.var "X`0" 0 true) (.var "X`1" 0 true)) :=
    evaluate_eq_ok.mpr ⟨_, _, read_identifier reachable identifier,
      by rw [options]; exact expanded, by rw [options]; rfl⟩
  have value : s'.normalForm (.app (.var "x" 0 false) (.var "x" 0 false)) =
      .app (.var "x" 0 false) (.var "x" 0 false) :=
    normalForm_eq plain (by rw [options]; rfl)
  have differ : some (Term.app (.var "x" 0 false) (.var "x" 0 false)).structureFingerprint ≠
      some (Term.app (.var "X`0" 0 true) (.var "X`1" 0 true)).structureFingerprint := by
    decide +kernel
  refine ⟨.new _, shown, identifier, s', defined, success, value, ?_⟩
  rw [mem_equivalents reachable.mirrored, entered, value]
  exact differ

end UntypedLambda.Session
