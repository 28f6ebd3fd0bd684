import UntypedLambda.Proofs.Log.Notes
import UntypedLambda.Proofs.Session.Noninterference
import UntypedLambda.Proofs.Session.TermStatements

/-! # What a session notes

What is noted in the course of a request can be told from the session without its log, and
nothing else becomes of the log.  So a request has the same answer and the same effect whatever
log the session has, and however much of the derivation is to be shown.

Main statements: `answer_relog`, `log_answer`. -/
set_option autoImplicit false

namespace UntypedLambda.Session

open Log (Note)

/-- The session with another log and another level of detail. -/
def relog (s : Session) (v : Verbosity) (log : Log) : Session :=
  { s with options := { s.options with verbosity := v }, log := log }

section
variable (s : Session) (v : Verbosity) (log : Log)

@[simp] theorem relog_log : (s.relog v log).log = log := rfl

@[simp] theorem relog_nextId : (s.relog v log).nextId = s.nextId := rfl

@[simp] theorem relog_bindings : (s.relog v log).bindings = s.bindings := rfl

@[simp] theorem relog_equivalences : (s.relog v log).equivalences = s.equivalences := rfl

@[simp] theorem relog_stats : (s.relog v log).stats = s.stats := rfl

theorem relog_clear : { s.relog v log with log := log.clear } =
    ({ s with log := s.log.clear } : Session).relog v (log.writeAll [.clear]) := rfl

end

/-! ## Notes of a request -/

def resultNote (s : Session) (t : Term) : Note :=
  .result t (if s.options.showEquivalent then s.equivalents t else [])

def reduceNotes (s : Session) (t : Term) : List Note :=
  let run := Reduction.run s.options.reduction {} t
  Note.ofReduction run ++
    match run.toExcept with
    | .ok u => [s.resultNote u]
    | .error e => [.error e]

def termNotes (s : Session) (t : Term) : List Note :=
  let run := Expansion.run s.lookup s.options.bound t
  .parsed t :: (Note.ofExpansion run ++
    match run.toExcept with
    | .ok u => s.reduceNotes u
    | .error e => [.error e])

def scanNotes (source : String) : List Note :=
  (Token.scan source).errors.map fun e => .error (.lex e)

def readNotes (s : Session) (source : String) : List Note :=
  scanNotes source ++
    match (s.read source).1 with
    | .ok _ => []
    | .error e => [.error (.parse e)]

def evaluateNotes (s : Session) (input : String) : List Note :=
  [.clear, .source input, .input (echo input)] ++ s.readNotes input ++
    match s.read input with
    | (.ok t, s) => s.termNotes t
    | (.error _, _) => []

def statementNotes (s : Session) : Statement → List Note
  | .term t => s.termNotes t
  | .binding name t => [.output (name ++ " = " ++ t.text)]
  | .command c => [.output (s.command c).1]

def nextNotes (s : Session) : Except ParseError (Option Statement) → List Note
  | .error e => [.error (.parse e)]
  | .ok none => []
  | .ok (some st) => s.statementNotes st

/-- Along the statements that the parser has before it. -/
def allNotes (s : Session) (p : Parser) : List Note :=
  if atLast : p.done then []
  else
    have progress : p.next.2.tokens.length < p.tokens.length :=
      p.length_next_lt (by simpa using atLast)
    s.nextNotes p.next.1 ++ allNotes (s.execNext p.next.1).2 p.next.2
termination_by p.tokens.length

def execNotes (s : Session) (source : String) : List Note :=
  [.clear, .source source] ++ scanNotes source ++ s.allNotes ⟨(Token.scan source).tokens, s.nextId⟩

def notes (s : Session) : Request → List Note
  | .call (.define _ source) => .source source :: s.readNotes source
  | .call (.exec source) => s.execNotes source
  | .call (.setOptions options) => [.settings options.verbosity options.traceCapacity]
  | .call (.evaluate input) => s.evaluateNotes input
  | .call (.command _) | .names | .lookup _ | .equivalents _ => []

/-! ## Notes about settings -/

section
variable (s : Session) (verbosity : Verbosity) (capacity : Int)

theorem settings_not_mem_termNotes (t : Term) : .settings verbosity capacity ∉ s.termNotes t := by
  have reduced : ∀ u, .settings verbosity capacity ∉ s.reduceNotes u := by
    intro u member
    unfold reduceNotes at member
    dsimp only at member
    split at member <;> simp [Note.ofReduction, resultNote] at member
  intro member
  unfold termNotes at member
  dsimp only at member
  split at member
  · rename_i u _
    simp [Note.ofExpansion, reduced u] at member
  · simp [Note.ofExpansion] at member

theorem settings_not_mem_readNotes (source : String) :
    .settings verbosity capacity ∉ s.readNotes source := by
  intro member
  unfold readNotes at member
  split at member <;> simp [scanNotes] at member

theorem settings_not_mem_nextNotes (found : Except ParseError (Option Statement)) :
    .settings verbosity capacity ∉ s.nextNotes found := by
  rcases found with e | _ | st
  · simp [nextNotes]
  · simp [nextNotes]
  · cases st with
    | term t => exact s.settings_not_mem_termNotes verbosity capacity t
    | binding name t => simp [nextNotes, statementNotes]
    | command c => simp [nextNotes, statementNotes]

end

theorem allNotes_of_done {p : Parser} (atLast : p.done = true) (s : Session) :
    s.allNotes p = [] := by
  rw [allNotes, dif_pos atLast]

theorem allNotes_of_next {p : Parser} (more : p.done = false) (s : Session) : s.allNotes p =
    s.nextNotes p.next.1 ++ (s.execNext p.next.1).2.allNotes p.next.2 := by
  rw [allNotes, dif_neg (by simp [more])]

theorem settings_not_mem_allNotes (s : Session) (verbosity : Verbosity) (capacity : Int)
    (p : Parser) : .settings verbosity capacity ∉ s.allNotes p := by
  induction s, p using allNotes.induct with
  | case1 s p atLast =>
      rw [allNotes_of_done atLast]
      exact List.not_mem_nil
  | case2 s p atLast _ ih =>
      have more : p.done = false := Bool.eq_false_iff.mpr atLast
      rw [allNotes_of_next more, List.mem_append, not_or]
      exact ⟨s.settings_not_mem_nextNotes verbosity capacity _, ih⟩

/-- Nothing but new options touches the settings of the log. -/
theorem settings_mem_notes {s : Session} {r : Request} {verbosity : Verbosity} {capacity : Int}
    (member : .settings verbosity capacity ∈ s.notes r) : ∃ options : Options,
      r = .call (.setOptions options) ∧ options.verbosity = verbosity := by
  have reading := fun s source => settings_not_mem_readNotes s verbosity capacity source
  cases r with
  | call c =>
      cases c with
      | define name source => simp [notes, reading] at member
      | exec source =>
          have executed := s.settings_not_mem_allNotes verbosity capacity
          simp [notes, execNotes, scanNotes, executed] at member
      | command c => simp [notes] at member
      | setOptions options =>
          simp only [notes, List.mem_singleton, Note.settings.injEq] at member
          exact ⟨options, rfl, member.1.symm⟩
      | evaluate input =>
          simp only [notes, evaluateNotes, List.mem_append, reading] at member
          generalize s.read input = found at member
          obtain ⟨result, after⟩ := found
          cases result with
          | error e => simp at member
          | ok t =>
              have evaluated := after.settings_not_mem_termNotes verbosity capacity t
              simp [evaluated] at member
  | _ => simp [notes] at member

/-! ## Evaluation -/

section
variable (s : Session) (v : Verbosity) (log : Log)

theorem fail_relog (e : Error) : (s.relog v log).fail e =
    ((s.fail e).1, (s.fail e).2.relog v (log.write (.error e))) := by
  unfold fail
  dsimp only
  split <;> rfl

theorem conclude_relog (t : Term) :
    (s.relog v log).conclude t = (s.conclude t).relog v (log.write (s.resultNote t)) := by
  have equal : (s.relog v log).equivalents t = s.equivalents t := rfl
  have shown : (s.relog v log).options.showEquivalent = s.options.showEquivalent := rfl
  unfold conclude resultNote Log.write
  dsimp only
  rw [equal, shown]
  cases s.options.showEquivalent with
  | false => rfl
  | true =>
      cases none : (s.equivalents t).isEmpty with
      | true => simp [none, relog]
      | false => simp [none, relog]

theorem reduce_relog (t : Term) : (s.relog v log).reduce t =
    ((s.reduce t).1, (s.reduce t).2.relog v (log.writeAll (s.reduceNotes t))) := by
  have reduction : (s.relog v log).options.reduction = s.options.reduction := rfl
  unfold reduce reduceNotes
  dsimp only
  rw [reduction]
  generalize Reduction.run s.options.reduction {} t = run
  rw [Log.writeAll_append, ← Log.addReduction_eq]
  cases run.toExcept with
  | ok u =>
      exact congrArg (Prod.mk _) (conclude_relog
        { s with log := s.log.addReduction run, stats := s.stats.addReduction run.counters } v
        (log.addReduction run) u)
  | error e =>
      have failed := fail_relog
        { s with log := s.log.addReduction run, stats := s.stats.addReduction run.counters } v
        (log.addReduction run) e
      exact congrArg (fun r : Error × Session => (Except.error r.1, r.2)) failed

theorem evaluateTerm_relog (t : Term) : (s.relog v log).evaluateTerm t =
    { s.evaluateTerm t with
      session := (s.evaluateTerm t).session.relog v (log.writeAll (s.termNotes t)) } := by
  have bound : (s.relog v log).options.bound = s.options.bound := rfl
  have lookup : (s.relog v log).lookup = s.lookup := rfl
  unfold evaluateTerm termNotes
  dsimp only
  rw [bound, lookup]
  generalize Expansion.run s.lookup s.options.bound t = run
  let stats : Stats :=
    { s.stats with
      evaluations := s.stats.evaluations + 1
      deltas := s.stats.deltas + run.unfoldings.length }
  -- the session as it is when the names have been expanded
  let expanded : Session :=
    { s with stats := stats, log := (s.log.add .parsed t.text).addExpansion run }
  have noted : ∀ more : List Note,
      log.writeAll (.parsed t :: (Note.ofExpansion run ++ more)) =
        ((log.add .parsed t.text).addExpansion run).writeAll more := by
    intro more
    rw [Log.addExpansion_eq, ← Log.writeAll_append]
    rfl
  rw [noted]
  cases run.toExcept with
  | ok u =>
      have reduced := reduce_relog expanded v ((log.add .parsed t.text).addExpansion run) u
      exact congrArg (fun r : Except Error Term × Session => Evaluation.mk r.1 (run.inPlace t) r.2)
        reduced
  | error e =>
      have failed := fail_relog expanded v ((log.add .parsed t.text).addExpansion run) e
      exact congrArg (fun r : Error × Session => Evaluation.mk (.error r.1) (run.inPlace t) r.2)
        failed

/-! ## Requests -/

theorem reportAll_relog (source : String) :
    (s.relog v log).reportAll (Token.scan source).errors =
      s.relog v (log.writeAll (scanNotes source)) := by
  have noted : log.writeAll (scanNotes source) =
      (Token.scan source).errors.foldl (fun log e => log.reportError (.lex e)) log :=
    List.foldl_map
  rw [noted]
  rfl

theorem read_relog (source : String) : (s.relog v log).read source =
    ((s.read source).1, (s.read source).2.relog v (log.writeAll (s.readNotes source))) := by
  have found := read_eq s source
  unfold readNotes
  rw [found, Log.writeAll_append]
  unfold Session.read
  dsimp only
  rw [reportAll_relog]
  have next : (s.relog v (log.writeAll (scanNotes source))).nextId = s.nextId := rfl
  have next' : (s.reportAll (Token.scan source).errors).nextId = s.nextId := rfl
  rw [next, next']
  generalize Parser.parseTerm ⟨(Token.scan source).tokens, s.nextId⟩ = parsed
  obtain ⟨result, p⟩ := parsed
  cases result <;> rfl

theorem command_relog (c : Command) :
    (s.relog v log).command c = ((s.command c).1, (s.command c).2.relog v log) := by
  have contains : ∀ name, (s.relog v log).bindings.contains name = s.bindings.contains name :=
    fun _ => rfl
  cases c with
  | unbind name =>
      unfold command
      dsimp only
      rw [contains]
      split
      · rfl
      · split <;> rfl
  | _ => rfl

theorem execStatement_relog (st : Statement) : (s.relog v log).execStatement st =
    ((s.execStatement st).1,
      (s.execStatement st).2.relog v (log.writeAll (s.statementNotes st))) := by
  cases st with
  | term t =>
      unfold execStatement
      dsimp only
      rw [evaluateTerm_relog]
      rfl
  | binding name t => rfl
  | command c =>
      unfold execStatement
      dsimp only
      rw [command_relog]
      rfl

theorem execNext_relog (found : Except ParseError (Option Statement)) :
    (s.relog v log).execNext found =
      ((s.execNext found).1,
        (s.execNext found).2.relog v (log.writeAll (s.nextNotes found))) := by
  rcases found with e | st | st
  · rfl
  · rfl
  · unfold execNext
    dsimp only
    rw [execStatement_relog]
    rfl

theorem execAll_relog (p : Parser) : (s.relog v log).execAll p =
    ((s.execAll p).1, (s.execAll p).2.relog v (log.writeAll (s.allNotes p))) := by
  induction s, p using Session.execAll.induct generalizing log with
  | case1 s p atLast =>
      rw [execAll_of_done atLast, execAll_of_done atLast, allNotes_of_done atLast]
      rfl
  | case2 s p atLast progress reply s' executed _ _ _ ih =>
      have more : p.done = false := Bool.eq_false_iff.mpr atLast
      have after : (s.execNext p.next.1).2 = s' := congrArg Prod.snd executed
      rw [execAll_of_next more, execAll_of_next more, allNotes_of_next more, execNext_relog,
        after, ih, Log.writeAll_append]

theorem relog_self : s.relog s.options.verbosity s.log = s := rfl

/-- To be compared with the session itself, it is enough to say what becomes of the session
under any log. -/
theorem relog_of_forall {α : Type} {f : Session → α × Session} {result : α} {after : Session}
    {notes : List Note}
    (each : ∀ v log, f (s.relog v log) = (result, after.relog v (log.writeAll notes))) :
    f (s.relog v log) = ((f s).1, (f s).2.relog v (log.writeAll notes)) := by
  have own := each s.options.verbosity s.log
  rw [relog_self] at own
  rw [each, own]
  rfl

/-- A text is executed as its statements are, with a log of its own. -/
theorem relog_exec (source : String) : (s.relog v log).exec source =
    ((s.execAll ⟨(Token.scan source).tokens, s.nextId⟩).1,
      (s.execAll ⟨(Token.scan source).tokens, s.nextId⟩).2.relog v
        (log.writeAll (s.execNotes source))) := by
  have begun : (s.relog v log).exec source =
      ((s.relog v (log.clear.setSource source)).reportAll (Token.scan source).errors).execAll
        ⟨(Token.scan source).tokens, s.nextId⟩ :=
    rfl
  rw [begun, reportAll_relog, execNotes, Log.writeAll_append, Log.writeAll_append]
  exact execAll_relog s v _ _

theorem exec_relog (source : String) : (s.relog v log).exec source =
    ((s.exec source).1, (s.exec source).2.relog v (log.writeAll (s.execNotes source))) :=
  @relog_of_forall s v log _ (·.exec source) _ _ _ fun v log => relog_exec s v log source

/-- The outcome of a definition, without the note of its source. -/
def defined (name source : String) : Except Error Unit × Session :=
  match s.read source with
  | (.error e, s) => (.error (.during ("define " ++ name) (.parse e)), s)
  | (.ok t, s) => (.ok (), s.bind name t)

theorem relog_define (name source : String) : (s.relog v log).define name source =
    ((s.defined name source).1,
      (s.defined name source).2.relog v
        (log.writeAll (.source source :: s.readNotes source))) := by
  have begun : (s.relog v log).define name source =
      defined (s.relog v (log.setSource source)) name source := rfl
  rw [begun, defined, defined, read_relog]
  generalize s.read source = found
  obtain ⟨result, after⟩ := found
  cases result <;> rfl

theorem define_relog (name source : String) : (s.relog v log).define name source =
    ((s.define name source).1,
      (s.define name source).2.relog v (log.writeAll (.source source :: s.readNotes source))) :=
  @relog_of_forall s v log _ (·.define name source) _ _ _ fun v log =>
    relog_define s v log name source

/-- The outcome of an evaluation, without the notes that it makes. -/
def evaluated (input : String) : Except Error Term × Session :=
  match s.read input with
  | (.error e, s) => (.error (.parse e), s.countError)
  | (.ok t, s) => ((s.evaluateTerm t).result, (s.evaluateTerm t).session)

theorem relog_evaluate (input : String) : (s.relog v log).evaluate input =
    ((s.evaluated input).1,
      (s.evaluated input).2.relog v (log.writeAll (s.evaluateNotes input))) := by
  have begun : (s.relog v log).evaluate input =
      evaluated (s.relog v (log.writeAll [.clear, .source input, .input (echo input)])) input :=
    rfl
  rw [begun, evaluated, evaluated, evaluateNotes, read_relog, Log.writeAll_append,
    Log.writeAll_append]
  generalize s.read input = found
  obtain ⟨result, after⟩ := found
  cases result with
  | error e => rfl
  | ok t =>
      dsimp only
      rw [evaluateTerm_relog]

theorem evaluate_relog (input : String) : (s.relog v log).evaluate input =
    ((s.evaluate input).1,
      (s.evaluate input).2.relog v (log.writeAll (s.evaluateNotes input))) :=
  @relog_of_forall s v log _ (·.evaluate input) _ _ _ fun v log => relog_evaluate s v log input

/-- The level of detail after a request. -/
def Request.level (v : Verbosity) : Request → Verbosity
  | .call (.setOptions options) => options.verbosity
  | _ => v

/-- Whatever log a session has, a request is answered in the same way and has the same effect,
and what is noted for it is written to that log. -/
theorem answer_relog (r : Request) : (s.relog v log).answer r =
    ((s.answer r).1, (s.answer r).2.relog (r.level v) (log.writeAll (s.notes r))) := by
  cases r with
  | call c =>
      cases c with
      | define name source =>
          unfold answer
          dsimp only
          rw [define_relog]
          rfl
      | exec source =>
          unfold answer
          dsimp only
          rw [exec_relog]
          rfl
      | command c =>
          unfold answer
          dsimp only
          rw [command_relog]
          rfl
      | setOptions options => rfl
      | evaluate input =>
          unfold answer
          dsimp only
          rw [evaluate_relog]
          rfl
  | _ => rfl

theorem log_answer (r : Request) : (s.answer r).2.log = s.log.writeAll (s.notes r) := by
  have own := answer_relog s s.options.verbosity s.log r
  rw [relog_self] at own
  exact congrArg (·.2.log) own

end

/-! ## One request after the other -/

/-- What is told, and the session in the end. -/
def answers (s : Session) : List Request → List Told × Session
  | [] => ([], s)
  | r :: requests =>
    let (told, s) := s.answer r
    let (more, s) := s.answers requests
    (told :: more, s)

def notesOf (s : Session) : List Request → List Note
  | [] => []
  | r :: requests => s.notes r ++ (s.answer r).2.notesOf requests

def Request.levelOf (v : Verbosity) (requests : List Request) : Verbosity :=
  requests.foldl Request.level v

theorem answers_relog (s : Session) (v : Verbosity) (log : Log) (requests : List Request) :
    (s.relog v log).answers requests = ((s.answers requests).1,
      (s.answers requests).2.relog (Request.levelOf v requests)
        (log.writeAll (s.notesOf requests))) := by
  induction requests generalizing s v log with
  | nil => rfl
  | cons r requests ih =>
      unfold answers notesOf
      dsimp only
      rw [answer_relog, Log.writeAll_append]
      dsimp only
      rw [ih]
      rfl

theorem log_answers (s : Session) (requests : List Request) :
    (s.answers requests).2.log = s.log.writeAll (s.notesOf requests) := by
  induction requests generalizing s with
  | nil => rfl
  | cons r requests ih =>
      rw [notesOf, Log.writeAll_append, ← log_answer]
      exact ih (s.answer r).2

end UntypedLambda.Session
