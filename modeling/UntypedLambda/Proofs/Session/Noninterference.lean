import UntypedLambda.Proofs.Session.Renumbering

/-! # What evaluations leave no trace in

An evaluation uses up numbers, moves the counters and writes to the log.  None of this can be
told from what the session answers later, numbers apart: with the evaluation left out, every
other request is answered in the same way and makes the counters grow by as much.

Main statement: `observe_kept`. -/
set_option autoImplicit false

namespace UntypedLambda.Session

/-! ## Requests -/

/-- What can be asked of a session, questions that change nothing included. -/
inductive Request where
  | call (c : Call)
  | names
  | lookup (name : String)
  | equivalents (t : Term)

/-- What the one who asks is told. -/
inductive Told where
  | defined (result : Except Error Unit)
  | executed (replies : List Reply)
  | output (text : String)
  | evaluated (result : Except Error Term)
  | names (list : List String)
  | definition (found : Option Term)
  | nothing
deriving DecidableEq

def Told.renumber (σ : Int → Int) : Told → Told
  | .defined result => .defined (result.mapError (Error.renumber σ))
  | .executed replies => .executed (replies.map (Reply.renumber σ))
  | .output text => .output text
  | .evaluated result => .evaluated (Term.renumberResult (Error.renumber σ) σ result)
  | .names list => .names list
  | .definition found => .definition (found.map (Term.renumber σ))
  | .nothing => .nothing

def answer (s : Session) : Request → Told × Session
  | .call (.define name source) =>
    let (result, s) := s.define name source
    (.defined result, s)
  | .call (.exec source) =>
    let (replies, s) := s.exec source
    (.executed replies, s)
  | .call (.command c) =>
    let (text, s) := s.command c
    (.output text, s)
  | .call (.setOptions options) => (.nothing, s.setOptions options)
  | .call (.evaluate input) =>
    let (result, s) := s.evaluate input
    (.evaluated result, s)
  | .names => (.names s.names, s)
  | .lookup name => (.definition (s.lookup name), s)
  | .equivalents t => (.names (s.equivalents t), s)

/-! ## Observations -/

/-- What is told, and how far the counters move. -/
structure Observation where
  told : Told
  growth : Stats.Growth
deriving DecidableEq

/-- All terms are told without their numbers, so that their names, marks and shape are left, and
with them every text, message and place (`Term.text_renumber`, `Error.message_renumber`,
`Error.location?_renumber`). -/
def observation (s : Session) (r : Request) : Observation :=
  ⟨(s.answer r).1.renumber fun _ => 0, s.stats.growth (s.answer r).2.stats⟩

/-- Requests one after the other. -/
def observe (s : Session) : List Request → List Observation
  | [] => []
  | r :: requests => s.observation r :: (s.answer r).2.observe requests

/-- A request that stays, or an evaluation that is left out. -/
inductive Step where
  | kept (r : Request)
  | spare (input : String)

def Step.request : Step → Request
  | .kept r => r
  | .spare input => .call (.evaluate input)

/-- What belongs to the steps that stay, of a list with one entry for each step. -/
def atKept {α : Type} : List Step → List α → List α
  | .kept _ :: steps, x :: xs => x :: atKept steps xs
  | .spare _ :: steps, _ :: xs => atKept steps xs
  | _, _ => []

/-! ## Numbers on numbers -/

section
variable (σ τ : Int → Int)

theorem Error.renumber_renumber (e : Error) :
    (e.renumber σ).renumber τ = e.renumber (τ ∘ σ) := by
  induction e with
  | lex e => rfl
  | parse e => rfl
  | depth e => simp only [Error.renumber, Term.renumber_renumber]
  | walk e => rfl
  | during task cause ih => rw [Error.renumber, Error.renumber, Error.renumber, ih]

theorem Statement.renumber_renumber (st : Statement) :
    (st.renumber σ).renumber τ = st.renumber (τ ∘ σ) := by
  cases st <;> simp only [Statement.renumber, Term.renumber_renumber]

theorem Reply.renumber_renumber (r : Reply) :
    (r.renumber σ).renumber τ = r.renumber (τ ∘ σ) := by
  obtain ⟨statement, answer⟩ := r
  have answers : (answer.renumber σ).renumber τ = answer.renumber (τ ∘ σ) := by
    cases answer <;>
      simp only [Answer.renumber, Term.renumber_renumber, Error.renumber_renumber]
  have statements : Statement.renumber τ ∘ Statement.renumber σ = Statement.renumber (τ ∘ σ) :=
    funext (Statement.renumber_renumber σ τ)
  simp only [Reply.renumber, Option.map_map, statements, answers]

theorem Told.renumber_renumber (told : Told) :
    (told.renumber σ).renumber τ = told.renumber (τ ∘ σ) := by
  have terms : Term.renumber τ ∘ Term.renumber σ = Term.renumber (τ ∘ σ) :=
    funext (Term.renumber_renumber σ τ)
  have replies : Reply.renumber τ ∘ Reply.renumber σ = Reply.renumber (τ ∘ σ) :=
    funext (Reply.renumber_renumber σ τ)
  cases told with
  | defined result =>
      cases result <;> simp only [Told.renumber, Except.mapError, Error.renumber_renumber]
  | executed list => simp only [Told.renumber, List.map_map, replies]
  | evaluated result =>
      cases result <;>
        simp only [Told.renumber, Term.renumberResult, Error.renumber_renumber,
          Term.renumber_renumber]
  | definition found => simp only [Told.renumber, Option.map_map, terms]
  | _ => rfl

end

/-! ## Side by side -/

section
variable {σ : Int → Int} {lead : Stats.Growth} {a b : Session}

theorem InStep.answer (step : InStep σ lead a b) (r : Request) :
    (b.answer r).1.renumber (fun _ => 0) = (a.answer r).1.renumber (fun _ => 0) ∧
      InStep σ lead (a.answer r).2 (b.answer r).2 := by
  have plain : ∀ {told told' : Told}, told' = told.renumber σ →
      told'.renumber (fun _ => 0) = told.renumber (fun _ => 0) := by
    rintro told _ rfl
    rw [Told.renumber_renumber]
    rfl
  cases r with
  | call c =>
      cases c with
      | define name source =>
          obtain ⟨result, after⟩ := step.define name source
          exact ⟨plain (congrArg Told.defined result), after⟩
      | exec source =>
          obtain ⟨replies, after⟩ := step.exec source
          exact ⟨plain (congrArg Told.executed replies), after⟩
      | command c =>
          obtain ⟨output, after⟩ := step.command c
          exact ⟨plain (congrArg Told.output output), after⟩
      | setOptions options => exact ⟨rfl, step.setOptions options⟩
      | evaluate input =>
          obtain ⟨result, after⟩ := step.evaluate input
          exact ⟨plain (congrArg Told.evaluated result), after⟩
  | names => exact ⟨plain (congrArg Told.names step.names), step⟩
  | lookup name => exact ⟨plain (congrArg Told.definition (step.lookup name)), step⟩
  | equivalents t =>
      have same : b.equivalents t = a.equivalents t := by
        rw [Session.equivalents, Session.equivalents, step.equivalences]
      exact ⟨plain (congrArg Told.names same), step⟩

theorem growth_eq_of_lead {a' b' : Session} (before : a.stats.growth b.stats = lead)
    (after : a'.stats.growth b'.stats = lead) :
    b.stats.growth b'.stats = a.stats.growth a'.stats := by
  have same := before.trans after.symm
  simp only [Stats.growth, Stats.Growth.mk.injEq] at same ⊢
  omega

theorem InStep.observation (step : InStep σ lead a b) (r : Request) :
    b.observation r = a.observation r := by
  obtain ⟨told, after⟩ := step.answer r
  rw [Session.observation, Session.observation, told, growth_eq_of_lead step.lead after.lead]

end

/-! ## An evaluation on one side -/

theorem evaluate_keeps (s : Session) (input : String) :
    (s.evaluate input).2.options = s.options ∧ (s.evaluate input).2.bindings = s.bindings ∧
      (s.evaluate input).2.equivalences = s.equivalences ∧
      s.nextId ≤ (s.evaluate input).2.nextId := by
  unfold evaluate
  dsimp only
  generalize (s.log.clear.setSource input).add .input _ = log
  have keeps := read_keeps { s with log := log } input
  have equivalences := equivalences_read { s with log := log } input
  have later := le_nextId_read { s with log := log } input
  generalize Session.read { s with log := log } input = found at keeps equivalences later
  obtain ⟨read, s'⟩ := found
  cases read with
  | error e => exact ⟨keeps.1, keeps.2, equivalences, later⟩
  | ok t =>
      obtain ⟨options, nextId, bindings⟩ := Untouched.evaluateTerm (a := s') ⟨rfl, rfl, rfl⟩ t
      dsimp only
      rw [options, nextId, bindings, equivalences_evaluateTerm]
      exact ⟨keeps.1, keeps.2, equivalences, later⟩

/-- The numbers that the evaluation has used up are passed over on this side only. -/
theorem InStep.evaluate_right {σ : Int → Int} {lead : Stats.Growth} {a b : Session}
    (step : InStep σ lead a b) (reachable : Reachable a) (input : String) :
    ∃ σ' lead', InStep σ' lead' a (b.evaluate input).2 := by
  obtain ⟨ledger, sound⟩ := reachable.sound
  obtain ⟨options, bindings, equivalences, later⟩ := b.evaluate_keeps input
  have positive : 0 < a.nextId := sound.next ▸ ledger.pos
  have le : σ a.nextId ≤ (b.evaluate input).2.nextId := step.nextId ▸ later
  generalize (b.evaluate input).2 = b' at *
  let σ' : Int → Int := fun id => if id < a.nextId then σ id else id + (b'.nextId - a.nextId)
  have below : ∀ id < a.nextId, σ' id = σ id := fun id less => if_pos less
  have above : ∀ id, a.nextId ≤ id → σ' id = id + (b'.nextId - a.nextId) := fun id from' =>
    if_neg (by omega)
  refine ⟨σ', a.stats.growth b'.stats, ⟨⟨?_, ?_, ?_⟩, ?_, rfl⟩, ?_, ?_⟩
  · exact step.renumbering.after positive le
  · rw [options, step.options]
  · intro name
    rw [lookup_eq_of_bindings bindings, step.lookup]
    cases found : a.lookup name with
    | none => rfl
    | some d =>
        refine congrArg some (Term.renumber_congr fun l member => (below l.2 ?_).symm)
        by_cases free : l.2 = 0
        · omega
        · rw [sound.next]
          exact ((sound.defines name d found).spliced.entered member free).lt
  · rw [equivalences, step.equivalences]
  · rw [above a.nextId (Int.le_refl _)]
    omega
  · intro id from'
    rw [above id from', above a.nextId (Int.le_refl _)]
    omega

/-! ## The result -/

theorem Reachable.answer {s : Session} (reachable : Reachable s) (r : Request) :
    Reachable (s.answer r).2 := by
  cases r with
  | call c =>
      cases c with
      | define name source => exact .define reachable name source
      | exec source => exact .exec reachable source
      | command c => exact .command reachable c
      | setOptions options => exact .setOptions reachable options
      | evaluate input => exact .evaluate reachable input
  | _ => exact reachable

theorem InStep.observe {σ : Int → Int} {lead : Stats.Growth} {a b : Session}
    (step : InStep σ lead a b) (reachable : Reachable a) (steps : List Step) :
    atKept steps (b.observe (steps.map Step.request)) =
      a.observe (atKept steps (steps.map Step.request)) := by
  induction steps generalizing σ lead a b with
  | nil => rfl
  | cons first steps ih =>
      cases first with
      | kept r =>
          have rest := ih (step.answer r).2 (reachable.answer r)
          exact congrArg₂ List.cons (step.observation r) rest
      | spare input =>
          obtain ⟨σ', lead', step'⟩ := step.evaluate_right reachable input
          exact ih step' reachable

theorem InStep.refl (s : Session) : InStep id (s.stats.growth s.stats) s s where
  renumbering := .refl
  options := rfl
  lookup := by
    intro name
    rw [funext Term.renumber_id, Option.map_id']
  equivalences := rfl
  lead := rfl
  nextId := rfl
  shifts := by
    intro id _
    dsimp only [id_eq]
    omega

/-- Evaluations may be left out anywhere: what is observed at the other requests stays the
same. -/
theorem observe_kept (options : Options) (steps : List Step) :
    atKept steps ((new options).observe (steps.map Step.request)) =
      (new options).observe (atKept steps (steps.map Step.request)) :=
  (InStep.refl (new options)).observe (.new options) steps

end UntypedLambda.Session
