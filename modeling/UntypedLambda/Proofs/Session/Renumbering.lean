import UntypedLambda.Proofs.Parser.Renumbering
import UntypedLambda.Proofs.Reduction.Renumbering
import UntypedLambda.Proofs.Session.Mirror

/-! # Sessions with other numbers

Two sessions whose definitions differ in their numbers only, and whose counters may differ, go
on side by side: the same operation has the same outcome in both, numbers apart, makes the
counters grow by as much, and leaves two such sessions behind.

Main statements: `SameButNumbers.execAll`, `InStep.evaluate`. -/
set_option autoImplicit false

namespace UntypedLambda

/-! ## Counters -/

/-- How far the counters of a session have moved. -/
structure Stats.Growth where
  evaluations : Int
  errors : Int
  betas : Int
  alphas : Int
  frees : Int
  deltas : Int
deriving DecidableEq, Repr

def Stats.growth (before after : Stats) : Stats.Growth where
  evaluations := after.evaluations - before.evaluations
  errors := after.errors - before.errors
  betas := after.betas - before.betas
  alphas := after.alphas - before.alphas
  frees := after.frees - before.frees
  deltas := after.deltas - before.deltas

namespace Session

/-! ## Answers -/

def Answer.renumber (σ : Int → Int) : Answer → Answer
  | .value t => .value (t.renumber σ)
  | .output text => .output text
  | .failure e => .failure (e.renumber σ)

def Reply.renumber (σ : Int → Int) (r : Reply) : Reply :=
  ⟨r.statement.map (Statement.renumber σ), r.answer.renumber σ⟩

/-! ## Definitions with other numbers -/

structure SameDefinitions (σ : Int → Int) (a b : Session) : Prop where
  renumbering : Renumbering σ
  options : b.options = a.options
  lookup : ∀ name, b.lookup name = (a.lookup name).map (Term.renumber σ)

namespace SameDefinitions

variable {σ : Int → Int} {a b : Session} (same : SameDefinitions σ a b)
include same

theorem expansion (bound : Nat) (t : Term) : Expansion.run b.lookup bound (t.renumber σ) =
    (Expansion.run a.lookup bound t).renumber σ :=
  Expansion.run_renumber same.renumbering same.lookup bound t

theorem normalForm (t : Term) : b.normalForm (t.renumber σ) = (a.normalForm t).renumber σ := by
  unfold Session.normalForm
  rw [same.expansion, same.options]
  generalize Expansion.run a.lookup Bound.default t = expansion
  obtain ⟨result, unfoldings⟩ := expansion
  cases result with
  | error stop => rfl
  | ok expanded =>
      simp only [Expansion.Run.renumber, Term.renumberResult]
      rw [Reduction.run_renumber same.renumbering]
      generalize Reduction.run { bound := a.options.bound } {} expanded = reduction
      obtain ⟨result, events, counters⟩ := reduction
      cases result <;> rfl

theorem contains (name : String) : b.bindings.contains name = a.bindings.contains name := by
  have found := congrArg Option.isSome (same.lookup name)
  rw [Option.isSome_map] at found
  simpa [Session.lookup] using found

theorem toList : b.bindings.toList = a.bindings.toList.map fun p => (p.1, p.2.renumber σ) := by
  have equiv : b.bindings.Equiv (a.bindings.map fun _ t => t.renumber σ) := by
    apply Std.TreeMap.Equiv.of_forall_constGet?_eq
    intro name
    rw [Std.TreeMap.getElem?_map]
    exact same.lookup name
  rw [equiv.toList_eq, Std.TreeMap.toList_map]

theorem names : b.names = a.names := by
  rw [Session.names, Session.names, ← Std.TreeMap.map_fst_toList_eq_keys,
    ← Std.TreeMap.map_fst_toList_eq_keys, same.toList, List.map_map]
  rfl

theorem aliases : b.aliases =
    a.aliases.map fun group => ⟨group.names, group.term.renumber σ⟩ := by
  let moved : String × Term × Int64 → String × Term × Int64 :=
    fun entry => (entry.1, entry.2.1.renumber σ, entry.2.2)
  have entries : (b.bindings.toList.map fun p => (p.1, p.2, p.2.valueFingerprint)) =
      (a.bindings.toList.map fun p => (p.1, p.2, p.2.valueFingerprint)).map moved := by
    rw [same.toList, List.map_map, List.map_map]
    simp [moved, Function.comp_def, Term.valueFingerprint_renumber]
  unfold Session.aliases
  dsimp only
  rw [entries]
  generalize a.bindings.toList.map (fun p => (p.1, p.2, p.2.valueFingerprint)) = listed
  have fingerprints : (listed.map moved).map (·.2.2) = listed.map (·.2.2) := by
    rw [List.map_map]
    rfl
  rw [fingerprints, List.map_filterMap]
  congr 1
  funext h
  have members : (listed.map moved).filter (·.2.2 == h) =
      (listed.filter (·.2.2 == h)).map moved := by
    rw [List.filter_map]
    rfl
  rw [members]
  cases listed.filter (·.2.2 == h) with
  | nil => rfl
  | cons first rest => simp [moved, Function.comp_def]

theorem environment : b.environment = a.environment := by
  have lines : b.aliases.map Aliases.line = a.aliases.map Aliases.line := by
    rw [same.aliases, List.map_map]
    apply List.map_congr_left
    intro group _
    simp only [Function.comp_apply, Aliases.line, Term.text_renumber]
  unfold Session.environment
  rw [lines]

end SameDefinitions

/-! ## Operations side by side

While statements are executed the next number is with the parser, so it has no part here. -/

/-- The second session has the definitions of the first with other numbers, the same table, and
counters that are ahead by `lead`. -/
structure SameButNumbers (σ : Int → Int) (lead : Stats.Growth) (a b : Session) : Prop
    extends SameDefinitions σ a b where
  equivalences : b.equivalences = a.equivalences
  lead : a.stats.growth b.stats = lead

namespace SameButNumbers

variable {σ : Int → Int} {lead : Stats.Growth} {a b : Session}
  (same : SameButNumbers σ lead a b)
include same

/-- Log and next number have no part in it, and both counters may move by the same amount. -/
theorem of_fields {a' b' : Session} (options : a'.options = a.options)
    (options' : b'.options = b.options) (bindings : a'.bindings = a.bindings)
    (bindings' : b'.bindings = b.bindings) (equivalences : a'.equivalences = a.equivalences)
    (equivalences' : b'.equivalences = b.equivalences)
    (growth : a'.stats.growth b'.stats = a.stats.growth b.stats) :
    SameButNumbers σ lead a' b' := by
  refine ⟨⟨same.renumbering, ?_, ?_⟩, ?_, growth.trans same.lead⟩
  · rw [options, options', same.options]
  · intro name
    rw [lookup_eq_of_bindings bindings, lookup_eq_of_bindings bindings', same.lookup]
  · rw [equivalences, equivalences', same.equivalences]

theorem countError : SameButNumbers σ lead a.countError b.countError := by
  refine same.of_fields rfl rfl rfl rfl rfl rfl ?_
  simp only [Session.countError, Stats.growth, Stats.Growth.mk.injEq, true_and, and_true]
  omega

theorem equivalents (t : Term) : b.equivalents (t.renumber σ) = a.equivalents t := by
  rw [Session.equivalents, Session.equivalents, same.equivalences,
    Term.structureFingerprint_renumber]

theorem fail (e : Error) : (b.fail (e.renumber σ)).1 = (a.fail e).1.renumber σ ∧
    SameButNumbers σ lead (a.fail e).2 (b.fail (e.renumber σ)).2 := by
  have counted : SameButNumbers σ lead { a.countError with log := a.countError.log.reportError e }
      { b.countError with log := b.countError.log.reportError (e.renumber σ) } :=
    same.countError.of_fields rfl rfl rfl rfl rfl rfl rfl
  unfold Session.fail
  rw [Error.cause_renumber]
  cases e.cause <;> exact ⟨rfl, counted⟩

theorem conclude (t : Term) :
    SameButNumbers σ lead (a.conclude t) (b.conclude (t.renumber σ)) := by
  have shows : b.options.showEquivalent = a.options.showEquivalent := by rw [same.options]
  unfold Session.conclude
  dsimp only
  rw [same.equivalents, shows]
  split <;> exact same.of_fields rfl rfl rfl rfl rfl rfl rfl

theorem reduce (t : Term) :
    (b.reduce (t.renumber σ)).1 = Term.renumberResult (Error.renumber σ) σ (a.reduce t).1 ∧
      SameButNumbers σ lead (a.reduce t).2 (b.reduce (t.renumber σ)).2 := by
  have options : b.options.reduction = a.options.reduction := by rw [same.options]
  have run := Reduction.run_renumber same.renumbering a.options.reduction t
  have ended := @Reduction.Run.toExcept_renumber σ (Reduction.run a.options.reduction {} t)
  unfold Session.reduce
  rw [options, run]
  dsimp only
  rw [ended]
  generalize Reduction.run a.options.reduction {} t = done
  have counted : SameButNumbers σ lead
      { a with log := a.log.addReduction done, stats := a.stats.addReduction done.counters }
      { b with
        log := b.log.addReduction (done.renumber σ)
        stats := b.stats.addReduction (done.renumber σ).counters } := by
    refine same.of_fields rfl rfl rfl rfl rfl rfl ?_
    simp only [Stats.addReduction, Stats.growth, Reduction.Run.renumber, Stats.Growth.mk.injEq,
      true_and, and_true]
    omega
  cases done.toExcept with
  | ok u => exact ⟨rfl, counted.conclude u⟩
  | error e =>
      obtain ⟨error, after⟩ := counted.fail e
      exact ⟨congrArg Except.error error, after⟩

theorem evaluateTerm (t : Term) :
    (b.evaluateTerm (t.renumber σ)).result =
        Term.renumberResult (Error.renumber σ) σ (a.evaluateTerm t).result ∧
      (b.evaluateTerm (t.renumber σ)).expanded = (a.evaluateTerm t).expanded.renumber σ ∧
      SameButNumbers σ lead (a.evaluateTerm t).session (b.evaluateTerm (t.renumber σ)).session := by
  have bound : b.options.bound = a.options.bound := by rw [same.options]
  have run := same.expansion a.options.bound t
  have ended := @Expansion.Run.toExcept_renumber σ (Expansion.run a.lookup a.options.bound t)
  unfold Session.evaluateTerm
  rw [bound, run]
  dsimp only
  rw [ended, Expansion.Run.inPlace_renumber]
  generalize Expansion.run a.lookup a.options.bound t = done
  let counted (s : Session) (t : Term) (done : Expansion.Run) : Session :=
    { s with
      stats :=
        { s.stats with
          evaluations := s.stats.evaluations + 1
          deltas := s.stats.deltas + done.unfoldings.length }
      log := (s.log.add .parsed t.text).addExpansion done }
  have begun : SameButNumbers σ lead (counted a t done)
      (counted b (t.renumber σ) (done.renumber σ)) := by
    refine same.of_fields rfl rfl rfl rfl rfl rfl ?_
    simp only [counted, Stats.growth, Expansion.Run.renumber, List.length_map,
      Stats.Growth.mk.injEq, true_and]
    omega
  cases done.toExcept with
  | ok u =>
      obtain ⟨result, after⟩ := begun.reduce u
      exact ⟨result, rfl, after⟩
  | error e =>
      obtain ⟨error, after⟩ := begun.fail e
      exact ⟨congrArg Except.error error, rfl, after⟩

theorem bind (name : String) (t : Term) :
    SameButNumbers σ lead (a.bind name t) (b.bind name (t.renumber σ)) := by
  have definitions : SameDefinitions σ (a.bind name t) (b.bind name (t.renumber σ)) := by
    refine ⟨same.renumbering, same.options, fun x => ?_⟩
    rw [lookup_bind, lookup_bind, same.lookup]
    split <;> rfl
  have cleared : b.cleared name = a.cleared name := by
    rw [Session.cleared, Session.cleared, same.contains, same.equivalences]
  refine ⟨definitions, ?_, same.lead⟩
  rw [equivalences_bind, equivalences_bind, cleared, definitions.normalForm,
    Term.structureFingerprint_renumber]

theorem unbind (name : String) : SameButNumbers σ lead (a.unbind name) (b.unbind name) := by
  refine ⟨⟨same.renumbering, same.options, fun x => ?_⟩, ?_, same.lead⟩
  · rw [lookup_unbind, lookup_unbind, same.lookup]
    split <;> rfl
  · rw [Session.unbind, Session.unbind, same.equivalences]

theorem command (c : Command) :
    (b.command c).1 = (a.command c).1 ∧ SameButNumbers σ lead (a.command c).2 (b.command c).2 := by
  cases c with
  | env argument => exact ⟨same.environment, same⟩
  | help argument => exact ⟨rfl, same⟩
  | unknown argument => exact ⟨rfl, same⟩
  | unbind name =>
      simp only [Session.command, same.contains]
      split
      · exact ⟨rfl, same⟩
      · split
        · exact ⟨rfl, same.unbind name⟩
        · exact ⟨rfl, same⟩

/-! ### Statements -/

theorem say (st : Statement) (out : String) :
    (b.say (st.renumber σ) out).1 = (a.say st out).1.renumber σ ∧
      SameButNumbers σ lead (a.say st out).2 (b.say (st.renumber σ) out).2 :=
  ⟨rfl, same.of_fields rfl rfl rfl rfl rfl rfl rfl⟩

theorem execStatement (st : Statement) :
    (b.execStatement (st.renumber σ)).1 = (a.execStatement st).1.renumber σ ∧
      SameButNumbers σ lead (a.execStatement st).2 (b.execStatement (st.renumber σ)).2 := by
  cases st with
  | term t =>
      obtain ⟨result, expanded, after⟩ := same.evaluateTerm t
      refine ⟨?_, after⟩
      simp only [Statement.renumber, Session.execStatement, result, expanded]
      cases (a.evaluateTerm t).result <;> rfl
  | binding name t =>
      have said := (same.bind name t).say (.binding name t) (name ++ " = " ++ t.text)
      simp only [Statement.renumber, Session.execStatement, Term.text_renumber]
      exact said
  | command c =>
      obtain ⟨answer, after⟩ := same.command c
      have said := after.say (.command c) (a.command c).1
      simp only [Statement.renumber, Session.execStatement, answer]
      exact said

theorem execNext (found : Except ParseError (Option Statement)) :
    (b.execNext (found.map (Option.map (Statement.renumber σ)))).1 =
        (a.execNext found).1.map (Reply.renumber σ) ∧
      SameButNumbers σ lead (a.execNext found).2
        (b.execNext (found.map (Option.map (Statement.renumber σ)))).2 := by
  cases found with
  | error e => exact ⟨rfl, same.countError.of_fields rfl rfl rfl rfl rfl rfl rfl⟩
  | ok found =>
      cases found with
      | none => exact ⟨rfl, same⟩
      | some st =>
          obtain ⟨reply, after⟩ := same.execStatement st
          exact ⟨congrArg some reply, after⟩

end SameButNumbers

/-! ## Sessions in step -/

/-- The next number moves as well, and so will all that are given out later. -/
structure InStep (σ : Int → Int) (lead : Stats.Growth) (a b : Session) : Prop
    extends SameButNumbers σ lead a b where
  nextId : b.nextId = σ a.nextId
  shifts : Shifts σ a.nextId

theorem SameButNumbers.execAll {σ : Int → Int} {lead : Stats.Growth} {a b : Session}
    (same : SameButNumbers σ lead a b) {p : Parser} (shifts : Shifts σ p.nextId) :
    (b.execAll (p.renumber σ)).1 = (a.execAll p).1.map (Reply.renumber σ) ∧
      InStep σ lead (a.execAll p).2 (b.execAll (p.renumber σ)).2 := by
  induction a, p using Session.execAll.induct generalizing b with
  | case1 a p atLast =>
      have atLast' : (p.renumber σ).done = true := atLast
      rw [execAll_of_done atLast, execAll_of_done atLast']
      exact ⟨rfl, same.of_fields rfl rfl rfl rfl rfl rfl rfl, rfl, shifts⟩
  | case2 a p atLast progress reply a' executed _ _ _ ih =>
      have more : p.done = false := Bool.eq_false_iff.mpr atLast
      have more' : (p.renumber σ).done = false := more
      have read := Parser.next_renumber same.renumbering shifts
      have later : p.nextId ≤ p.next.2.nextId := (Parser.numbering_next p).first_le_last
      obtain ⟨answered, after⟩ := same.execNext p.next.1
      rw [executed] at answered after
      obtain ⟨replies, ended⟩ := ih after (shifts.later later)
      rw [execAll_of_next more, execAll_of_next more', executed, read]
      refine ⟨?_, ended⟩
      rw [List.map_append, ← Option.toList_map]
      exact congrArg₂ (· ++ ·) (congrArg Option.toList answered) replies

namespace InStep

variable {σ : Int → Int} {lead : Stats.Growth} {a b : Session} (step : InStep σ lead a b)
include step

theorem parser (tokens : List Token) :
    Parser.mk tokens b.nextId = Parser.renumber σ ⟨tokens, a.nextId⟩ := by
  rw [step.nextId]
  rfl

theorem exec (source : String) :
    (b.exec source).1 = (a.exec source).1.map (Reply.renumber σ) ∧
      InStep σ lead (a.exec source).2 (b.exec source).2 := by
  obtain ⟨log, run⟩ := a.exec_eq source
  obtain ⟨log', run'⟩ := b.exec_eq source
  have logged : SameButNumbers σ lead { a with log := log } { b with log := log' } :=
    step.of_fields rfl rfl rfl rfl rfl rfl rfl
  rw [run, run', step.parser]
  exact logged.execAll (p := ⟨(Token.scan source).tokens, a.nextId⟩) step.shifts

/-- The log has no part in it. -/
theorem log (log log' : Log) : InStep σ lead { a with log := log } { b with log := log' } :=
  ⟨step.of_fields rfl rfl rfl rfl rfl rfl rfl, step.nextId, step.shifts⟩

theorem read (source : String) :
    (b.read source).1 = (a.read source).1.map (Term.renumber σ) ∧
      InStep σ lead (a.read source).2 (b.read source).2 := by
  have parsed := Parser.parseTerm_renumber step.renumbering
    (p := ⟨(Token.scan source).tokens, a.nextId⟩) step.shifts
  have later := (Parser.numbering_parseTerm ⟨(Token.scan source).tokens, a.nextId⟩).first_le_last
  unfold Session.read
  dsimp only [reportAll]
  rw [step.parser, parsed]
  generalize Parser.parseTerm ⟨(Token.scan source).tokens, a.nextId⟩ = found at later
  obtain ⟨result, p⟩ := found
  have after := step.shifts.later later
  cases result with
  | ok t => exact ⟨rfl, step.of_fields rfl rfl rfl rfl rfl rfl rfl, rfl, after⟩
  | error e => exact ⟨rfl, step.of_fields rfl rfl rfl rfl rfl rfl rfl, rfl, after⟩

theorem define (name source : String) :
    (b.define name source).1 = (a.define name source).1.mapError (Error.renumber σ) ∧
      InStep σ lead (a.define name source).2 (b.define name source).2 := by
  obtain ⟨result, after⟩ := (step.log (a.log.setSource source) (b.log.setSource source)).read source
  unfold Session.define
  dsimp only
  generalize Session.read { a with log := a.log.setSource source } source = found at result after
  generalize Session.read { b with log := b.log.setSource source } source = found' at result after
  obtain ⟨read, a'⟩ := found
  obtain ⟨read', b'⟩ := found'
  obtain rfl : read' = read.map (Term.renumber σ) := result
  cases read with
  | ok t => exact ⟨rfl, after.bind name t, after.nextId, after.shifts⟩
  | error e => exact ⟨rfl, after⟩

theorem evaluate (input : String) :
    (b.evaluate input).1 = Term.renumberResult (Error.renumber σ) σ (a.evaluate input).1 ∧
      InStep σ lead (a.evaluate input).2 (b.evaluate input).2 := by
  unfold Session.evaluate
  dsimp only
  generalize (a.log.clear.setSource input).add .input _ = log
  generalize (b.log.clear.setSource input).add .input _ = log'
  obtain ⟨result, after⟩ := (step.log log log').read input
  generalize Session.read { a with log := log } input = found at result after
  generalize Session.read { b with log := log' } input = found' at result after
  obtain ⟨read, a'⟩ := found
  obtain ⟨read', b'⟩ := found'
  obtain rfl : read' = read.map (Term.renumber σ) := result
  cases read with
  | ok t =>
      obtain ⟨result, _, evaluated⟩ := after.evaluateTerm t
      have kept := (Untouched.evaluateTerm (a := a') ⟨rfl, rfl, rfl⟩ t).nextId
      have kept' := (Untouched.evaluateTerm (a := b') ⟨rfl, rfl, rfl⟩ (t.renumber σ)).nextId
      refine ⟨result, evaluated, ?_, ?_⟩
      · dsimp only [Except.map]
        rw [kept, kept', after.nextId]
      · dsimp only [Except.map]
        rw [kept]
        exact after.shifts
  | error e => exact ⟨rfl, after.countError, after.nextId, after.shifts⟩

theorem command (c : Command) :
    (b.command c).1 = (a.command c).1 ∧ InStep σ lead (a.command c).2 (b.command c).2 := by
  obtain ⟨output, after⟩ := step.toSameButNumbers.command c
  refine ⟨output, after, ?_, ?_⟩
  · rw [nextId_command, nextId_command, step.nextId]
  · rw [nextId_command]
    exact step.shifts

theorem setOptions (options : Options) :
    InStep σ lead (a.setOptions options) (b.setOptions options) :=
  ⟨⟨⟨step.renumbering, rfl, step.lookup⟩, step.equivalences, step.lead⟩, step.nextId, step.shifts⟩

end InStep

end Session

end UntypedLambda
