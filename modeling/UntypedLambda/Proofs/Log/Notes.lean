import UntypedLambda.Proofs.Log.History

/-! # What a log is told in the course of a derivation

Whatever happens in a session is noted in its log, and a note does not depend on what the log
does with it.  At a low enough level some of them leave no entry; at any other level each of them
leaves an entry of its kind, and results and errors may leave a second one below.

Main statements: `addExpansion_eq`, `addReduction_eq`, `heard_writeAll`. -/
set_option autoImplicit false

namespace UntypedLambda

def Reduction.Event.kind : Reduction.Event → Entry.Kind
  | alpha _ _ _ _ => .alpha
  | beta _ _ _ => .beta
  | free _ _ => .freeRename

namespace Log

inductive Note where
  | clear
  | source (text : String)
  | settings (verbosity : Verbosity) (capacity : Int)
  | input (echo : String)
  | parsed (t : Term)
  | output (text : String)
  | unfolding (u : Expansion.Unfolding)
  | summary (t : Term)
  | event (e : Reduction.Event)
  /-- A result, and the names that it is equivalent to. -/
  | result (t : Term) (equal : List String)
  | error (e : Error)

def write (log : Log) : Note → Log
  | .clear => log.clear
  | .source text => log.setSource text
  | .settings verbosity capacity => (log.setVerbosity verbosity).setCapacity capacity
  | .input echo => log.add .input echo
  | .parsed t => log.add .parsed t.text
  | .output text => log.add .normal text
  | .unfolding u => log.addDelta u.name u.definition.text
  | .summary t => log.addStep .deltaSummary t.text
  | .event e => log.addEvent e
  | .result t equal =>
    let log := log.add .result t.text
    if equal.isEmpty then log else log.addEquivalence equal log.lastId
  | .error e => log.reportError e

def writeAll (log : Log) (notes : List Note) : Log := notes.foldl write log

theorem writeAll_append (log : Log) (notes more : List Note) :
    log.writeAll (notes ++ more) = (log.writeAll notes).writeAll more :=
  List.foldl_append

/-! ## Derivations as notes -/

namespace Note

def ofExpansion (run : Expansion.Run) : List Note :=
  run.unfoldings.map .unfolding ++ run.summary?.toList.map .summary

def ofReduction (run : Reduction.Run) : List Note := run.events.map .event

/-- Notes that are entered as steps. -/
inductive IsStep : Note → Prop where
  | unfolding (u : Expansion.Unfolding) : IsStep (.unfolding u)
  | summary (t : Term) : IsStep (.summary t)
  | event (e : Reduction.Event) : IsStep (.event e)

end Note

theorem addStep_of_not_showsSteps {log : Log} (quiet : log.showsSteps = false) (kind : Entry.Kind)
    (message detail : String) : log.addStep kind message detail = log := by
  rw [addStep, quiet]
  rfl

theorem write_of_not_showsSteps {log : Log} (quiet : log.showsSteps = false) {n : Note}
    (isStep : n.IsStep) : log.write n = log := by
  cases isStep with
  | unfolding u => exact addStep_of_not_showsSteps quiet .delta _ ""
  | summary t => exact addStep_of_not_showsSteps quiet .deltaSummary _ ""
  | event e =>
      cases e with
      | alpha root binder fresh old => exact addStep_of_not_showsSteps quiet .alpha _ _
      | beta root arg fn => exact addStep_of_not_showsSteps quiet .beta _ _
      | free old fresh => exact addStep_of_not_showsSteps quiet .freeRename _ ""

theorem writeAll_of_not_showsSteps {log : Log} (quiet : log.showsSteps = false)
    {notes : List Note} (steps : ∀ n ∈ notes, n.IsStep) : log.writeAll notes = log := by
  induction notes with
  | nil => rfl
  | cons n notes ih =>
      have first := write_of_not_showsSteps quiet (steps n List.mem_cons_self)
      have rest := ih fun n member => steps n (List.mem_cons_of_mem _ member)
      rw [writeAll, List.foldl_cons, first]
      exact rest

theorem addExpansion_eq (log : Log) (run : Expansion.Run) :
    log.addExpansion run = log.writeAll (Note.ofExpansion run) := by
  unfold addExpansion
  cases shown : log.showsSteps with
  | true =>
      have unfolded : log.writeAll (run.unfoldings.map .unfolding) =
          run.unfoldings.foldl (fun log u => log.addDelta u.name u.definition.text) log :=
        List.foldl_map
      rw [Note.ofExpansion, writeAll_append, unfolded]
      cases run.summary? <;> rfl
  | false =>
      refine (writeAll_of_not_showsSteps shown fun n member => ?_).symm
      simp only [Note.ofExpansion, List.mem_append, List.mem_map] at member
      rcases member with ⟨u, _, rfl⟩ | ⟨t, _, rfl⟩
      · exact .unfolding u
      · exact .summary t

theorem addReduction_eq (log : Log) (run : Reduction.Run) :
    log.addReduction run = log.writeAll (Note.ofReduction run) := by
  unfold addReduction
  cases shown : log.showsSteps with
  | true =>
      have noted : log.writeAll (run.events.map .event) = run.events.foldl addEvent log :=
        List.foldl_map
      rw [if_pos rfl, Note.ofReduction, noted]
  | false =>
      refine (writeAll_of_not_showsSteps shown fun n member => ?_).symm
      obtain ⟨e, _, rfl⟩ := List.mem_map.mp member
      exact .event e

/-! ## Notes as calls -/

/-- The calls that a note comes down to. -/
def Note.calls (log : Log) : Note → List Call
  | clear => [.clear]
  | source text => [.setSource text]
  | settings verbosity capacity => [.setVerbosity verbosity, .setCapacity capacity]
  | input echo => [.add .input echo "" 0]
  | parsed t => [.add .parsed t.text "" 0]
  | output text => [.add .normal text "" 0]
  | unfolding u => [.delta u.name u.definition.text]
  | summary t => [.step .deltaSummary t.text ""]
  | event (.alpha root binder fresh old) =>
    [.step .alpha root.text (Reduction.Event.alpha root binder fresh old).detail]
  | event (.beta root arg fn) => [.step .beta root.text (Reduction.Event.beta root arg fn).detail]
  | event (.free old fresh) => [.freeRename old fresh]
  | result t equal =>
    .add .result t.text "" 0 ::
      if equal.isEmpty then [] else [.equivalence equal (log.add .result t.text).lastId]
  | error e => [.report e.message e.location?]

theorem write_eq_run (log : Log) (n : Note) : log.write n = log.run (n.calls log) := by
  cases n with
  | event e => cases e <;> rfl
  | result t equal =>
      unfold Log.write Note.calls
      dsimp only
      split <;> rfl
  | _ => rfl

theorem exists_calls (log : Log) (notes : List Note) :
    ∃ calls, log.writeAll notes = log.run calls := by
  induction notes generalizing log with
  | nil => exact ⟨[], rfl⟩
  | cons n notes ih =>
      obtain ⟨calls, ran⟩ := ih (log.write n)
      refine ⟨n.calls log ++ calls, ?_⟩
      rw [run_append, ← write_eq_run]
      exact ran

/-! ## Ids -/

/-- Ids grow from one entry to the next, so that an id belongs to one entry only. -/
structure Ascending (log : Log) : Prop where
  ids : log.entries.toList.Pairwise fun d e => d.id < e.id
  last : ∀ e ∈ log.entries.toList, e.id ≤ log.lastId

theorem Ascending.adds {es : List Entry} {a b : Log} (ascending : Ascending a)
    (adds : Adds es a b) : Ascending b := by
  obtain ⟨part, sub, entries⟩ := adds.kept
  have fresh : ∀ e ∈ part, a.lastId < e.id ∧ e.id ≤ b.lastId := by
    intro e member
    have numbered : e.id ∈ es.map (·.id) := List.mem_map_of_mem (sub.subset member)
    rw [adds.ids, List.mem_range'_1] at numbered
    rw [adds.lastId]
    omega
  have later : a.lastId ≤ b.lastId := by rw [adds.lastId]; omega
  refine ⟨?_, ?_⟩
  · rw [entries, List.pairwise_append]
    refine ⟨ascending.ids, Adds.pairwise_kept adds.ids sub, fun d old e new => ?_⟩
    exact Nat.lt_of_le_of_lt (ascending.last d old) (fresh e new).1
  · intro e member
    rw [entries, List.mem_append] at member
    rcases member with old | new
    · exact Nat.le_trans (ascending.last e old) later
    · exact (fresh e new).2

theorem Ascending.call {log : Log} (ascending : Ascending log) (c : Call) :
    Ascending (log.call c) := by
  by_cases cleared : c = .clear
  · subst cleared
    exact ⟨List.Pairwise.nil, fun _ member => nomatch member⟩
  · exact ascending.adds (.call cleared log)

theorem Ascending.run {log : Log} (ascending : Ascending log) (calls : List Call) :
    Ascending (log.run calls) := by
  induction calls generalizing log with
  | nil => exact ascending
  | cons c calls ih => exact ih (ascending.call c)

theorem Ascending.writeAll {log : Log} (ascending : Ascending log) (notes : List Note) :
    Ascending (log.writeAll notes) := by
  obtain ⟨calls, ran⟩ := log.exists_calls notes
  rw [ran]
  exact ascending.run calls

/-! ## What is heard of notes -/

/-- How many entries of a kind were delivered to a subscriber. -/
def heard (log : Log) (i : Nat) (kind : Entry.Kind) : Nat :=
  (log.received i).countP (·.kind == kind)

theorem heard_subscribe (log : Log) (name : String) (i : Nat) (kind : Entry.Kind) :
    (log.subscribe name).heard i kind = log.heard i kind := rfl

theorem showsSteps_subscribe (log : Log) (name : String) :
    (log.subscribe name).showsSteps = log.showsSteps := rfl

namespace Note

/-- The kind of the entry that a note leaves. -/
def kind? : Note → Option Entry.Kind
  | clear => none
  | source _ => none
  | settings _ _ => none
  | input _ => some .input
  | parsed _ => some .parsed
  | output _ => some .normal
  | unfolding _ => some .delta
  | summary _ => some .deltaSummary
  | event e => some e.kind
  | result _ _ => some .result
  | error _ => some .error

/-- After the note steps are shown if they were shown before. -/
def Shows : Note → Prop
  | settings verbosity _ => verbosity.atLeast .low = true
  | _ => True

/-- How many notes leave an entry of a kind. -/
def count (kind : Entry.Kind) (notes : List Note) : Nat := notes.countP (·.kind? == some kind)

theorem count_append (kind : Entry.Kind) (notes more : List Note) :
    count kind (notes ++ more) = count kind notes + count kind more :=
  List.countP_append

end Note

section
variable {log : Log} {i : Nat} (listens : i < log.subscribers.length)
include listens

theorem heard_add (own : Entry.Kind) (message detail : String) (parent : Nat)
    (kind : Entry.Kind) : (log.add own message detail parent).heard i kind =
      log.heard i kind + if own == kind then 1 else 0 := by
  rw [heard, received_add, if_pos listens, List.countP_append, List.countP_singleton]
  rfl

theorem heard_addStep (shown : log.showsSteps = true) (own : Entry.Kind)
    (message detail : String) (kind : Entry.Kind) :
    (log.addStep own message detail).heard i kind =
      log.heard i kind + if own == kind then 1 else 0 := by
  rw [addStep, if_pos shown]
  exact heard_add listens own message _ 0 kind

theorem heard_add_of_ne {own kind : Entry.Kind} (other : own ≠ kind) (message detail : String)
    (parent : Nat) : (log.add own message detail parent).heard i kind = log.heard i kind := by
  rw [heard_add listens, if_neg (by simpa using other), Nat.add_zero]

/-- An entry below another one quotes a line or tells what a result is equivalent to. -/
theorem heard_write (shown : log.showsSteps = true) {kind : Entry.Kind}
    (notError : .error ≠ kind) (notEquivalence : .equivalence ≠ kind) (n : Note) :
    (log.write n).heard i kind = log.heard i kind + if n.kind? == some kind then 1 else 0 := by
  cases n with
  | clear => rfl
  | source text => rfl
  | settings verbosity capacity => rfl
  | input echo => exact heard_add listens .input echo "" 0 kind
  | parsed t => exact heard_add listens .parsed t.text "" 0 kind
  | output text => exact heard_add listens .normal text "" 0 kind
  | unfolding u => exact heard_addStep listens shown .delta _ "" kind
  | summary t => exact heard_addStep listens shown .deltaSummary t.text "" kind
  | event e =>
      cases e with
      | alpha root binder fresh old => exact heard_addStep listens shown .alpha _ _ kind
      | beta root arg fn => exact heard_addStep listens shown .beta _ _ kind
      | free old fresh => exact heard_addStep listens shown .freeRename _ "" kind
  | result t equal =>
      have said := heard_add listens .result t.text "" 0 kind
      unfold write
      dsimp only
      split
      · exact said
      · exact (@heard_add_of_ne (log.add .result t.text) i listens _ _ notEquivalence _ "" _).trans
          said
  | error e =>
      let marked : Log := { log with hasError := true }
      have said : (marked.add .error e.message).heard i kind = log.heard i kind :=
        @heard_add_of_ne marked i listens _ _ notError e.message "" 0
      have nothing : ((Note.error e).kind? == some kind) = false := by simpa [Note.kind?] using notError
      rw [nothing, if_neg (by simp), Nat.add_zero, write, reportError]
      rcases log.report_cases e.message e.location? with ⟨_, same⟩ | ⟨text, _, same⟩
      · rw [same]
        exact said
      · rw [same]
        exact (@heard_add_of_ne (marked.add .error e.message) i listens _ _ notError text "" _).trans
          said

end

/-! ## Settings -/

/-- All notes but those about the settings of the log themselves. -/
def Note.LeavesSettings : Note → Prop
  | source _ => False
  | settings _ _ => False
  | _ => True

theorem SameSettings.write {n : Note} (leaves : n.LeavesSettings) (log : Log) :
    SameSettings log (log.write n) := by
  cases n with
  | source text => exact leaves.elim
  | settings verbosity capacity => exact leaves.elim
  | unfolding u => exact .addStep log .delta _ ""
  | summary t => exact .addStep log .deltaSummary _ ""
  | event e =>
      cases e with
      | alpha root binder fresh old => exact .addStep log .alpha _ _
      | beta root arg fn => exact .addStep log .beta _ _
      | free old fresh => exact .addStep log .freeRename _ ""
  | result t equal =>
      unfold Log.write
      dsimp only
      split <;> exact ⟨rfl, rfl, rfl, rfl⟩
  | error e => exact .report log e.message e.location?
  | _ => exact ⟨rfl, rfl, rfl, rfl⟩

theorem subscribers_write (log : Log) (n : Note) :
    (log.write n).subscribers = log.subscribers := by
  cases n with
  | source text => rfl
  | settings verbosity capacity => rfl
  | _ => exact (SameSettings.write (by exact trivial) log).subscribers

theorem subscribers_writeAll (log : Log) (notes : List Note) :
    (log.writeAll notes).subscribers = log.subscribers := by
  induction notes generalizing log with
  | nil => rfl
  | cons n notes ih => exact (ih (log.write n)).trans (log.subscribers_write n)

theorem settings_write (log : Log) {n : Note}
    (notSettings : ∀ verbosity capacity, n ≠ .settings verbosity capacity) :
    (log.write n).verbosity = log.verbosity ∧ (log.write n).capacity = log.capacity := by
  cases n with
  | source text => exact ⟨rfl, rfl⟩
  | settings verbosity capacity => exact absurd rfl (notSettings verbosity capacity)
  | _ =>
      refine ⟨SameSettings.verbosity (.write ?_ log), SameSettings.capacity (.write ?_ log)⟩ <;>
        exact trivial

theorem settings_writeAll (log : Log) {notes : List Note}
    (notSettings : ∀ verbosity capacity, .settings verbosity capacity ∉ notes) :
    (log.writeAll notes).verbosity = log.verbosity ∧
      (log.writeAll notes).capacity = log.capacity := by
  induction notes generalizing log with
  | nil => exact ⟨rfl, rfl⟩
  | cons n notes ih =>
      have first := log.settings_write fun verbosity capacity same =>
        notSettings verbosity capacity (same ▸ List.mem_cons_self)
      have rest := ih (log.write n) fun verbosity capacity member =>
        notSettings verbosity capacity (List.mem_cons_of_mem _ member)
      exact ⟨rest.1.trans first.1, rest.2.trans first.2⟩

theorem verbosity_writeAll (log : Log) {notes : List Note}
    (notSettings : ∀ verbosity capacity, .settings verbosity capacity ∉ notes) :
    (log.writeAll notes).verbosity = log.verbosity :=
  (log.settings_writeAll notSettings).1

theorem showsSteps_write {log : Log} (shown : log.showsSteps = true) {n : Note}
    (shows : n.Shows) : (log.write n).showsSteps = true := by
  cases n with
  | source text => exact shown
  | settings verbosity capacity => exact shows
  | _ => exact (SameSettings.write (by exact trivial) log).showsSteps.trans shown

theorem heard_writeAll {log : Log} {i : Nat} (listens : i < log.subscribers.length)
    (shown : log.showsSteps = true) {notes : List Note} (shows : ∀ n ∈ notes, n.Shows)
    {kind : Entry.Kind} (notError : .error ≠ kind) (notEquivalence : .equivalence ≠ kind) :
    (log.writeAll notes).heard i kind = log.heard i kind + Note.count kind notes := by
  induction notes generalizing log with
  | nil => rfl
  | cons n notes ih =>
      have later := @ih (log.write n) ((log.subscribers_write n).symm ▸ listens)
        (showsSteps_write shown (shows n List.mem_cons_self))
        fun n member => shows n (List.mem_cons_of_mem _ member)
      have first := heard_write listens shown notError notEquivalence n
      rw [writeAll, List.foldl_cons, ← writeAll, later, first, Note.count, Note.count,
        List.countP_cons]
      omega

end Log

end UntypedLambda
