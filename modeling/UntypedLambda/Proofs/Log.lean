import UntypedLambda.Log

/-! # Logs written side by side

Without a limit, what is written to a log depends on the verbosity and on the source only.  So
two logs that are written to in the same way go on with the same contents.

Main statements: `Log.Continues.addExpansion`, `Log.Continues.addReduction`,
`Log.Continues.reportError`. -/
set_option autoImplicit false

namespace UntypedLambda

/-- What an entry says, apart from its place in the log. -/
structure Entry.Content where
  kind : Entry.Kind
  message : String
  detail : String
deriving DecidableEq, Repr

def Entry.content (e : Entry) : Entry.Content := ⟨e.kind, e.message, e.detail⟩

namespace Log

def contents (log : Log) : List Entry.Content := log.entries.toList.map Entry.content

theorem contents_add {log : Log} (unlimited : log.capacity = 0) (kind : Entry.Kind)
    (message detail : String) (parent : Nat) :
    (log.add kind message detail parent).contents = log.contents ++ [⟨kind, message, detail⟩] := by
  simp [contents, add, isFull, unlimited, Entry.content]

/-- The second log has the contents of the first behind those in front. -/
structure Continues (front : List Entry.Content) (log log' : Log) : Prop where
  verbosity : log'.verbosity = log.verbosity
  source : log'.source = log.source
  unlimited : log.capacity = 0 ∧ log'.capacity = 0
  contents : log'.contents = front ++ log.contents

namespace Continues

variable {front : List Entry.Content} {log log' : Log} (continues : Continues front log log')
include continues

theorem add (kind : Entry.Kind) (message detail : String) (parent parent' : Nat) :
    Continues front (log.add kind message detail parent) (log'.add kind message detail parent') where
  verbosity := continues.verbosity
  source := continues.source
  unlimited := continues.unlimited
  contents := by
    rw [contents_add continues.unlimited.1, contents_add continues.unlimited.2,
      continues.contents, List.append_assoc]

theorem showsSteps : log'.showsSteps = log.showsSteps := by
  rw [Log.showsSteps, Log.showsSteps, continues.verbosity]

theorem sourceLine? (line : Int) : log'.sourceLine? line = log.sourceLine? line := by
  rw [Log.sourceLine?, Log.sourceLine?, continues.source]

theorem addStep (kind : Entry.Kind) (message detail : String) :
    Continues front (log.addStep kind message detail) (log'.addStep kind message detail) := by
  have explained : log'.explain detail = log.explain detail := by
    rw [explain, explain, continues.verbosity]
  unfold Log.addStep
  rw [continues.showsSteps, explained]
  split
  · exact continues.add kind message _ 0 0
  · exact continues

theorem addDelta (name expanded : String) :
    Continues front (log.addDelta name expanded) (log'.addDelta name expanded) :=
  continues.addStep .delta _ ""

theorem addEvent (event : Reduction.Event) :
    Continues front (log.addEvent event) (log'.addEvent event) := by
  cases event with
  | alpha root binder fresh old => exact continues.addStep .alpha _ _
  | beta root arg fn => exact continues.addStep .beta _ _
  | free old fresh => exact continues.addStep .freeRename _ ""

theorem foldl {α : Type} {write : Log → α → Log}
    (step : ∀ {log log' : Log}, Continues front log log' →
      ∀ x, Continues front (write log x) (write log' x))
    (xs : List α) : Continues front (xs.foldl write log) (xs.foldl write log') := by
  induction xs generalizing log log' with
  | nil => exact continues
  | cons x xs ih => exact ih (step continues x)

theorem addExpansion (run : Expansion.Run) :
    Continues front (log.addExpansion run) (log'.addExpansion run) := by
  have unfolded : Continues front
      (run.unfoldings.foldl (fun log u => log.addDelta u.name u.definition.text) log)
      (run.unfoldings.foldl (fun log u => log.addDelta u.name u.definition.text) log') :=
    continues.foldl (fun said u => said.addDelta u.name u.definition.text) run.unfoldings
  unfold Log.addExpansion
  rw [continues.showsSteps]
  split
  · cases run.summary? with
    | none => exact unfolded
    | some t => exact unfolded.addStep .deltaSummary t.text ""
  · exact continues

theorem addReduction (run : Reduction.Run) :
    Continues front (log.addReduction run) (log'.addReduction run) := by
  unfold Log.addReduction
  rw [continues.showsSteps]
  split
  · exact continues.foldl (fun said event => said.addEvent event) run.events
  · exact continues

theorem report (message : String) (place : Option Location) :
    Continues front (log.report message place) (log'.report message place) := by
  have marked : Continues front { log with hasError := true } { log' with hasError := true } :=
    ⟨continues.verbosity, continues.source, continues.unlimited, continues.contents⟩
  have said := marked.add .error message "" 0 0
  unfold Log.report
  cases place with
  | none => exact said
  | some loc =>
      dsimp only
      rw [said.sourceLine? loc.line]
      split
      · exact said
      · exact said.add .error _ "" _ _

theorem reportError (e : Error) : Continues front (log.reportError e) (log'.reportError e) :=
  continues.report e.message e.location?

end Continues

end Log

end UntypedLambda
