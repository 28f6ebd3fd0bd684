import UntypedLambda.Proofs.Reduction.Counting
import UntypedLambda.Proofs.Session.Verbosity

/-! # What is counted is what is noted

Steps are counted by the reducer, unfoldings by the expansion, and evaluations and errors by the
session, each at a place of its own.  Taken together the counters move with the notes.

Main statement: `stats_heard`. -/
set_option autoImplicit false

namespace UntypedLambda

/-- The counter for notes of a kind. -/
def Stats.tally (s : Stats) : Entry.Kind → Nat
  | .parsed => s.evaluations
  | .alpha => s.alphas
  | .beta => s.betas
  | .freeRename => s.frees
  | .delta => s.deltas
  | _ => 0

def Entry.Kind.isCounted : Entry.Kind → Bool
  | parsed | alpha | beta | freeRename | delta => true
  | _ => false

open Log (Note)

def Log.Note.isCounted (n : Note) : Bool := n.kind?.any Entry.Kind.isCounted

/-! ## Counters and notes -/

/-- Between the two the counters have moved by these notes and so many errors. -/
structure Accounts (notes : List Note) (failures : Nat) (a b : Stats) : Prop where
  tally : ∀ kind : Entry.Kind, kind.isCounted = true →
    b.tally kind = a.tally kind + Note.count kind notes
  errors : b.errors = a.errors + failures

namespace Accounts

variable {notes more : List Note} {f g : Nat} {a b c : Stats}

theorem refl (a : Stats) : Accounts [] 0 a a := ⟨fun _ _ => rfl, rfl⟩

theorem trans (first : Accounts notes f a b) (second : Accounts more g b c) :
    Accounts (notes ++ more) (f + g) a c where
  tally := by
    intro kind counted
    rw [second.tally kind counted, first.tally kind counted, Note.count_append, Nat.add_assoc]
  errors := by rw [second.errors, first.errors, Nat.add_assoc]

/-- As long as nothing goes wrong there is nothing to add. -/
theorem before (first : Accounts notes 0 a b) (second : Accounts more g b c) :
    Accounts (notes ++ more) g a c := by
  have all := first.trans second
  rwa [Nat.zero_add] at all

/-- Most notes move no counter. -/
theorem idle (a : Stats) (uncounted : ∀ n ∈ notes, n.isCounted = false) :
    Accounts notes 0 a a where
  tally := by
    intro kind counted
    have none : Note.count kind notes = 0 := by
      refine List.countP_eq_zero.mpr fun n member same => ?_
      have silent := uncounted n member
      rw [Note.isCounted, eq_of_beq same, Option.any_some, counted] at silent
      cases silent
    rw [none, Nat.add_zero]
  errors := rfl

theorem idle_singleton (a : Stats) {n : Note} (uncounted : n.isCounted = false) :
    Accounts [n] 0 a a :=
  idle a fun _ member => List.mem_singleton.mp member ▸ uncounted

theorem countError (a : Stats) : Accounts [] 1 a { a with errors := a.errors + 1 } where
  tally := by
    intro kind counted
    cases kind <;> rfl
  errors := rfl

theorem failure (a : Stats) (e : Error) :
    Accounts [.error e] 1 a { a with errors := a.errors + 1 } :=
  (idle_singleton a rfl).trans (countError a)

theorem evaluation (a : Stats) (t : Term) :
    Accounts [.parsed t] 0 a { a with evaluations := a.evaluations + 1 } where
  tally := by
    intro kind counted
    cases kind <;> rfl
  errors := rfl

theorem unfoldings (a : Stats) (us : List Expansion.Unfolding) :
    Accounts (us.map .unfolding) 0 a { a with deltas := a.deltas + us.length } where
  tally := by
    intro kind counted
    have noted : Note.count kind (us.map .unfolding) =
        us.countP fun _ => Entry.Kind.delta == kind := List.countP_map
    rw [noted]
    cases kind <;> simp [Stats.tally, Entry.Kind.isCounted] at counted ⊢
  errors := rfl

/-- What an evaluation counts before it reduces anything. -/
theorem expansion (a : Stats) (t : Term) (run : Expansion.Run) :
    Accounts (.parsed t :: Note.ofExpansion run) 0 a
      { a with
        evaluations := a.evaluations + 1
        deltas := a.deltas + run.unfoldings.length } := by
  refine (evaluation a t).trans ((unfoldings _ run.unfoldings).trans (idle _ ?_))
  intro n member
  obtain ⟨u, _, rfl⟩ := List.mem_map.mp member
  rfl

theorem reduction (a : Stats) (o : Reduction.Options) (t : Term) :
    Accounts (Note.ofReduction (Reduction.run o {} t)) 0 a
      (a.addReduction (Reduction.run o {} t).counters) where
  tally := by
    intro kind counted
    have noted : Note.count kind (Note.ofReduction (Reduction.run o {} t)) =
        Reduction.occurrences kind (Reduction.run o {} t).events := List.countP_map
    have counts := Reduction.run_counts o {} t kind
    have fresh : Reduction.Counters.tally {} kind = 0 := by cases kind <;> rfl
    rw [fresh, Nat.zero_add, ← noted] at counts
    rw [← counts]
    cases kind <;> rfl
  errors := rfl

end Accounts

namespace Session

/-! ## Failures -/

/-- How many errors an outcome is. -/
def failures {ε α : Type} : Except ε α → Nat
  | .ok _ => 0
  | .error _ => 1

def Reply.failed (r : Reply) : Bool :=
  match r.answer with
  | .failure _ => true
  | _ => false

/-- How many errors the one who asked is told about evaluations and statements. -/
def Told.failures : Told → Nat
  | .executed replies => replies.countP Reply.failed
  | .evaluated result => Session.failures result
  | _ => 0

def allFailures : List Told → Nat
  | [] => 0
  | told :: more => told.failures + allFailures more

/-! ## Evaluation -/

section
variable (s : Session)

theorem accounts_fail (e : Error) : Accounts [.error e] 1 s.stats (s.fail e).2.stats := by
  have counted := Accounts.failure s.stats e
  unfold fail
  dsimp only
  split <;> exact counted

theorem accounts_conclude (t : Term) :
    Accounts [s.resultNote t] 0 s.stats (s.conclude t).stats := by
  have same : (s.conclude t).stats = s.stats := by
    unfold conclude
    dsimp only
    split <;> rfl
  rw [same]
  exact .idle_singleton s.stats rfl

theorem accounts_reduce (t : Term) : Accounts (s.reduceNotes t) (failures (s.reduce t).1)
    s.stats (s.reduce t).2.stats := by
  have reduced := Accounts.reduction s.stats s.options.reduction t
  unfold reduce reduceNotes
  dsimp only
  generalize Reduction.run s.options.reduction {} t = run at reduced
  cases run.toExcept with
  | ok u =>
      exact reduced.trans (accounts_conclude
        { s with log := s.log.addReduction run, stats := s.stats.addReduction run.counters } u)
  | error e =>
      exact reduced.trans (accounts_fail
        { s with log := s.log.addReduction run, stats := s.stats.addReduction run.counters } e)

theorem accounts_evaluateTerm (t : Term) :
    Accounts (s.termNotes t) (failures (s.evaluateTerm t).result) s.stats
      (s.evaluateTerm t).session.stats := by
  unfold evaluateTerm termNotes
  dsimp only
  generalize Expansion.run s.lookup s.options.bound t = run
  let stats : Stats :=
    { s.stats with
      evaluations := s.stats.evaluations + 1
      deltas := s.stats.deltas + run.unfoldings.length }
  let expanded : Session :=
    { s with stats := stats, log := (s.log.add .parsed t.text).addExpansion run }
  have begun : Accounts (.parsed t :: Note.ofExpansion run) 0 s.stats expanded.stats :=
    .expansion s.stats t run
  cases run.toExcept with
  | ok u => exact begun.before (accounts_reduce expanded u)
  | error e => exact begun.trans (accounts_fail expanded e)

/-! ## Requests -/

theorem stats_read (source : String) : (s.read source).2.stats = s.stats := by
  unfold Session.read
  dsimp only
  split <;> rfl

theorem isCounted_of_mem_readNotes (source : String) :
    ∀ n ∈ s.readNotes source, n.isCounted = false := by
  intro n member
  rcases List.mem_append.mp member with scanned | parsed
  · obtain ⟨e, _, rfl⟩ := List.mem_map.mp scanned
    rfl
  · split at parsed
    · cases parsed
    · rw [List.mem_singleton.mp parsed]
      rfl

theorem accounts_read (source : String) :
    Accounts (s.readNotes source) 0 s.stats (s.read source).2.stats := by
  rw [stats_read]
  exact .idle s.stats (s.isCounted_of_mem_readNotes source)

theorem stats_command (c : Command) : (s.command c).2.stats = s.stats := by
  cases c with
  | unbind name =>
      unfold command
      dsimp only
      split
      · rfl
      · split <;> rfl
  | _ => rfl

theorem accounts_execStatement (st : Statement) :
    Accounts (s.statementNotes st) ([(s.execStatement st).1].countP Reply.failed) s.stats
      (s.execStatement st).2.stats := by
  have said : ∀ text, Accounts [.output text] 0 s.stats s.stats := fun _ =>
    .idle_singleton s.stats rfl
  cases st with
  | term t =>
      have counted := s.accounts_evaluateTerm t
      unfold execStatement
      dsimp only
      cases result : (s.evaluateTerm t).result <;> rw [result] at counted <;> exact counted
  | binding name t => exact said (name ++ " = " ++ t.text)
  | command c =>
      have counted := said (s.command c).1
      unfold execStatement say
      dsimp only
      rw [stats_command]
      exact counted

theorem accounts_execNext (found : Except ParseError (Option Statement)) :
    Accounts (s.nextNotes found) ((s.execNext found).1.toList.countP Reply.failed) s.stats
      (s.execNext found).2.stats := by
  rcases found with e | _ | st
  · exact .failure s.stats (.parse e)
  · exact .refl s.stats
  · exact s.accounts_execStatement st

theorem accounts_execAll (p : Parser) :
    Accounts (s.allNotes p) ((s.execAll p).1.countP Reply.failed) s.stats
      (s.execAll p).2.stats := by
  induction s, p using allNotes.induct with
  | case1 s p atLast =>
      rw [allNotes_of_done atLast, execAll_of_done atLast]
      exact .refl s.stats
  | case2 s p atLast _ ih =>
      have more : p.done = false := Bool.eq_false_iff.mpr atLast
      rw [allNotes_of_next more, execAll_of_next more, List.countP_append]
      exact (s.accounts_execNext p.next.1).trans ih

theorem accounts_exec (source : String) :
    Accounts (s.execNotes source) ((s.exec source).1.countP Reply.failed) s.stats
      (s.exec source).2.stats := by
  have executed := relog_exec s s.options.verbosity s.log source
  rw [relog_self] at executed
  rw [executed, execNotes]
  have begun : Accounts ([.clear, .source source] ++ scanNotes source) 0 s.stats s.stats := by
    refine .idle s.stats fun n member => ?_
    rcases List.mem_append.mp member with first | scanned
    · simp only [List.mem_cons, List.not_mem_nil, or_false] at first
      rcases first with rfl | rfl <;> rfl
    · exact s.isCounted_of_mem_readNotes source n (List.mem_append_left _ scanned)
  exact begun.before (s.accounts_execAll ⟨(Token.scan source).tokens, s.nextId⟩)

/-- What is reduced to classify a definition is not counted. -/
theorem accounts_define (name source : String) :
    Accounts (.source source :: s.readNotes source) 0 s.stats (s.define name source).2.stats := by
  have same := stats_read { s with log := s.log.setSource source } source
  have defined : (s.define name source).2.stats = s.stats := by
    unfold define
    dsimp only
    split <;> rename_i read <;> rw [read] at same <;> exact same
  have sourced : Accounts [.source source] 0 s.stats s.stats := .idle_singleton s.stats rfl
  rw [defined]
  exact sourced.trans (.idle s.stats (s.isCounted_of_mem_readNotes source))

theorem accounts_evaluate (input : String) :
    Accounts (s.evaluateNotes input) (failures (s.evaluate input).1) s.stats
      (s.evaluate input).2.stats := by
  have done := relog_evaluate s s.options.verbosity s.log input
  rw [relog_self] at done
  rw [done, evaluateNotes]
  have begun : Accounts ([.clear, .source input, .input (echo input)] ++ s.readNotes input) 0
      s.stats (s.read input).2.stats := by
    have first : Accounts [.clear, .source input, .input (echo input)] 0 s.stats s.stats :=
      .idle s.stats (by simp [Note.isCounted, Log.Note.kind?, Entry.Kind.isCounted])
    exact first.trans (s.accounts_read input)
  unfold evaluated
  generalize s.read input = found at begun
  obtain ⟨result, after⟩ := found
  cases result with
  | error e => exact begun.trans (.countError after.stats)
  | ok t => exact begun.before (after.accounts_evaluateTerm t)

theorem accounts_answer (r : Request) : Accounts (s.notes r) (s.answer r).1.failures s.stats
    (s.answer r).2.stats := by
  cases r with
  | call c =>
      cases c with
      | define name source => exact s.accounts_define name source
      | exec source => exact s.accounts_exec source
      | command c =>
          unfold answer
          dsimp only
          rw [stats_command]
          exact .refl s.stats
      | setOptions options => exact .idle_singleton s.stats rfl
      | evaluate input => exact s.accounts_evaluate input
  | _ => exact .refl s.stats

end

theorem accounts_answers (s : Session) (requests : List Request) :
    Accounts (s.notesOf requests) (allFailures (s.answers requests).1) s.stats
      (s.answers requests).2.stats := by
  induction requests generalizing s with
  | nil => exact .refl s.stats
  | cons r requests ih => exact (s.accounts_answer r).trans (ih (s.answer r).2)

/-! ## What a subscriber hears -/

/-- A session with another subscriber to its log. -/
def listen (s : Session) (name : String) : Session := { s with log := s.log.subscribe name }

theorem log_listen (s : Session) (name : String) : (s.listen name).log = s.log.subscribe name :=
  rfl

theorem stats_listen (s : Session) (name : String) : (s.listen name).stats = s.stats := rfl

theorem stats_clear (s : Session) : ({ s with log := s.log.clear } : Session).stats = s.stats :=
  rfl

theorem stats_load (s : Session) (item : Prelude.Item) : (s.load item).stats = s.stats := by
  have same := s.stats_read item.source
  unfold load
  split <;> rename_i read <;> rw [read] at same <;> exact same

theorem stats_new (o : Options) : (new o).stats = {} := by
  have loaded : ∀ (items : List Prelude.Item) (s : Session),
      (items.foldl load s).stats = s.stats := by
    intro items
    induction items with
    | nil => exact fun _ => rfl
    | cons item items ih => exact fun s => (ih (s.load item)).trans (s.stats_load item)
  have classified : ∀ (names : List String) (s : Session),
      (names.foldl (fun s name => s.classify name (s.bindings.getD name .hole)) s).stats =
        s.stats := by
    intro names
    induction names with
    | nil => exact fun _ => rfl
    | cons name names ih => exact fun s => ih (s.classify name (s.bindings.getD name .hole))
  have started := classified (Prelude.items.flatMap (·.names))
    (Prelude.items.foldl load (empty o))
  have none : (empty o).stats = {} := rfl
  rw [loaded, none] at started
  rw [new_eq, prepare]
  exact (stats_clear _).trans started

theorem subscribers_new (o : Options) : (new o).log.subscribers = [] := by
  rw [log_new o o.verbosity, Log.subscribers_writeAll]
  rfl

theorem received_new (o : Options) (i : Nat) : (new o).log.received i = [] := by
  have subscribers := subscribers_new o
  rw [log_new o o.verbosity] at subscribers ⊢
  obtain ⟨calls, ran⟩ := (empty o).log.exists_calls
    ((empty o).loadNotes Prelude.items ++ [.clear])
  have silent : ∀ i, (empty o).log.received i = [] := fun _ => rfl
  rw [ran] at subscribers ⊢
  refine Log.received_eq_nil (fun i _ => silent i) calls i ?_
  rw [subscribers]
  exact Nat.zero_le i

theorem shows_of_mem_notesOf {requests : List Request}
    (stays : ∀ options, .call (.setOptions options) ∈ requests →
      options.verbosity.atLeast .low = true) (s : Session) :
    ∀ n ∈ s.notesOf requests, n.Shows := by
  induction requests generalizing s with
  | nil => exact fun _ member => nomatch member
  | cons r requests ih =>
      intro n member
      rcases List.mem_append.mp member with first | rest
      · cases n with
        | settings verbosity capacity =>
            obtain ⟨options, same, level⟩ := settings_mem_notes first
            have shown := stays options (same ▸ List.mem_cons_self)
            rw [level] at shown
            exact shown
        | _ => exact trivial
      · exact ih (fun options later => stays options (List.mem_cons_of_mem _ later)) _ n rest

/-- As long as steps are shown, the counters are the numbers of entries of each kind that a
subscriber of the first hour has received, and the errors are those that were told.  What is
reduced to classify a definition is neither counted nor noted, and of an evaluation all steps
are, whether or not it comes to an end. -/
theorem stats_heard (o : Options) (name : String) (shown : o.verbosity.atLeast .low = true)
    {requests : List Request}
    (stays : ∀ options, .call (.setOptions options) ∈ requests →
      options.verbosity.atLeast .low = true) :
    let told := (((new o).listen name).answers requests).1
    let s := (((new o).listen name).answers requests).2
    s.log.subscribers = [name] ∧
    s.stats.betas = s.log.heard 0 .beta ∧ s.stats.alphas = s.log.heard 0 .alpha ∧
    s.stats.frees = s.log.heard 0 .freeRename ∧ s.stats.deltas = s.log.heard 0 .delta ∧
    s.stats.evaluations = s.log.heard 0 .parsed ∧
    s.stats.errors = allFailures told ∧
    (∀ (s : Session) (name : String) (t : Term),
      (s.bind name t).stats = s.stats ∧ (s.bind name t).log = s.log) ∧
    ∀ (s : Session) (t : Term), Accounts (s.termNotes t) (failures (s.evaluateTerm t).result)
      s.stats (s.evaluateTerm t).session.stats := by
  intro told s
  have subscribers : ((new o).listen name).log.subscribers = [name] := by
    rw [log_listen, Log.subscribe, subscribers_new, List.nil_append]
  have accounts := accounts_answers ((new o).listen name) requests
  have begun : ((new o).listen name).stats = {} := by
    rw [stats_listen, stats_new]
  have nothing : ∀ kind, ((new o).listen name).log.heard 0 kind = 0 := by
    intro kind
    rw [log_listen, Log.heard_subscribe, Log.heard, received_new]
    rfl
  have shows := shows_of_mem_notesOf stays ((new o).listen name)
  have showsSteps : ((new o).listen name).log.showsSteps = true := by
    rw [log_listen, Log.showsSteps_subscribe, Log.showsSteps, verbosity_new]
    exact shown
  have log : s.log = ((new o).listen name).log.writeAll (((new o).listen name).notesOf requests) :=
    log_answers ((new o).listen name) requests
  have heard : ∀ kind : Entry.Kind, kind.isCounted = true →
      s.stats.tally kind = s.log.heard 0 kind := by
    intro kind counted
    have others : .error ≠ kind ∧ .equivalence ≠ kind := by
      constructor <;> rintro rfl <;> cases counted
    have listens : 0 < ((new o).listen name).log.subscribers.length := by
      rw [subscribers]
      exact Nat.one_pos
    have fresh : Stats.tally {} kind = 0 := by cases kind <;> rfl
    rw [log, Log.heard_writeAll listens showsSteps shows others.1 others.2, nothing,
      accounts.tally kind counted, begun, fresh]
  refine ⟨?_, heard .beta rfl, heard .alpha rfl, heard .freeRename rfl, heard .delta rfl,
    heard .parsed rfl, ?_, fun _ _ _ => ⟨rfl, rfl⟩, accounts_evaluateTerm⟩
  · rw [log, Log.subscribers_writeAll, subscribers]
  · have errors := accounts.errors
    rw [begun, Nat.zero_add] at errors
    exact errors

/-- More is shown from the second request on. -/
def shownRequests : List Request :=
  [.call (.evaluate "(\\x. x) y"), .call (.setOptions { verbosity := .high }),
    .call (.exec "b = a"), .call (.evaluate "b")]

theorem stats_heard_shown :
    ({} : Options).verbosity.atLeast .low = true ∧
      (∀ options, .call (.setOptions options) ∈ shownRequests →
        options.verbosity.atLeast .low = true) ∧
      let s := (((new {}).listen "sink").answers shownRequests).2
      s.stats.betas = s.log.heard 0 .beta ∧ s.stats.deltas = s.log.heard 0 .delta ∧
        s.stats.evaluations = s.log.heard 0 .parsed := by
  have shown : ({} : Options).verbosity.atLeast .low = true := by decide
  have stays : ∀ options, .call (.setOptions options) ∈ shownRequests →
      options.verbosity.atLeast .low = true := by
    intro options member
    simp only [shownRequests, List.mem_cons, Request.call.injEq, Call.setOptions.injEq,
      reduceCtorEq, List.not_mem_nil, or_false, false_or] at member
    rw [member]
    decide
  obtain ⟨_, betas, _, _, deltas, evaluations, _⟩ := stats_heard {} "sink" shown stays
  exact ⟨shown, stays, betas, deltas, evaluations⟩

end Session

end UntypedLambda
