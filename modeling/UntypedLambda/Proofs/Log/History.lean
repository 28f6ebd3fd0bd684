import Mathlib.Data.List.DropRight
import UntypedLambda.Log

/-! # What a log has been told

A log keeps the first entries that are added and drops the rest, numbers all of them, and hands
all of them to its subscribers.  Clearing it begins a new count of entries, but ids go on.  So
what a log holds after any calls can be told from the list of the entries that were added, kept
or not.

Main statement: `run_kept`. -/
set_option autoImplicit false

namespace UntypedLambda.Log

/-- The calls that change a log.  What was read, results and plain output are added as they are,
and the renaming of a binder, a contraction and the outcome of an expansion are steps. -/
inductive Call where
  | add (kind : Entry.Kind) (message detail : String) (parent : Nat)
  | step (kind : Entry.Kind) (message detail : String)
  | freeRename (old fresh : String)
  | delta (name expanded : String)
  | equivalence (names : List String) (parent : Nat)
  | report (message : String) (place : Option Location)
  | setSource (source : String)
  | setVerbosity (verbosity : Verbosity)
  | setCapacity (capacity : Int)
  | subscribe (name : String)
  | clear
deriving DecidableEq

def call (log : Log) : Call → Log
  | .add kind message detail parent => log.add kind message detail parent
  | .step kind message detail => log.addStep kind message detail
  | .freeRename old fresh => log.addFreeRename old fresh
  | .delta name expanded => log.addDelta name expanded
  | .equivalence names parent => log.addEquivalence names parent
  | .report message place => log.report message place
  | .setSource source => log.setSource source
  | .setVerbosity verbosity => log.setVerbosity verbosity
  | .setCapacity capacity => log.setCapacity capacity
  | .subscribe name => log.subscribe name
  | .clear => log.clear

def run (log : Log) (calls : List Call) : Log := calls.foldl call log

/-! ## The entries added -/

/-- An entry with the next numbers. -/
def upcoming (log : Log) (kind : Entry.Kind) (message : String) (detail : String := "")
    (parent : Nat := 0) : Entry :=
  ⟨log.lastId + 1, parent, log.sequence + 1, kind, message, detail⟩

def upcomingStep (log : Log) (kind : Entry.Kind) (message : String) (detail : String := "") :
    List Entry :=
  if log.showsSteps then [log.upcoming kind message (log.explain detail)] else []

/-- The line in question, below the error that was just reported. -/
def upcomingQuote (log : Log) (place : Option Location) : List Entry :=
  match place with
  | none => []
  | some loc =>
    match log.sourceLine? loc.line with
    | none => []
    | some line => [⟨log.lastId + 2, log.lastId + 1, log.sequence + 2, .error, caret line loc, ""⟩]

/-- The entries that a call adds, whether there is room for them or not. -/
def added (log : Log) : Call → List Entry
  | .add kind message detail parent => [log.upcoming kind message detail parent]
  | .step kind message detail => log.upcomingStep kind message detail
  | .freeRename old fresh => log.upcomingStep .freeRename ("'" ++ old ++ "' → '" ++ fresh ++ "'")
  | .delta name expanded =>
    log.upcomingStep .delta ("expanded '" ++ name ++ "' into '" ++ expanded ++ "'")
  | .equivalence names parent =>
    [log.upcoming .equivalence ("equivalent to: " ++ ", ".intercalate names) "" parent]
  | .report message place => log.upcoming .error message :: log.upcomingQuote place
  | _ => []

/-- All entries that calls add, one call after the other. -/
def history (log : Log) : List Call → List Entry
  | [] => []
  | c :: calls => log.added c ++ (log.call c).history calls

/-- What was delivered to the subscriber with that index. -/
def received (log : Log) (i : Nat) : List Entry :=
  (log.deliveries.toList.filter (·.subscriber == i)).map (·.entry)

def Call.isClear (c : Call) : Bool := decide (c = .clear)

theorem Call.isClear_iff {c : Call} : c.isClear = true ↔ c = .clear := decide_eq_true_iff

/-- The calls up to the last time the log was cleared. -/
def upToClear (calls : List Call) : List Call := calls.rdropWhile (!·.isClear)

/-- The calls since then. -/
def sinceClear (calls : List Call) : List Call := calls.rtakeWhile (!·.isClear)

def Call.capacity? : Call → Option Int
  | .setCapacity capacity => some capacity
  | _ => none

/-- The capacity that was asked for last, or none that limits. -/
def lastCapacity (calls : List Call) : Int := (calls.filterMap Call.capacity?).getLast?.getD 0

/-! ## One entry -/

theorem entries_add (log : Log) (kind : Entry.Kind) (message detail : String) (parent : Nat) :
    (log.add kind message detail parent).entries.toList =
      if log.isFull then log.entries.toList
      else log.entries.toList ++ [log.upcoming kind message detail parent] := by
  unfold add
  dsimp only
  split <;> simp [upcoming]

theorem received_add (log : Log) (kind : Entry.Kind) (message detail : String) (parent i : Nat) :
    (log.add kind message detail parent).received i = log.received i ++
      if i < log.subscribers.length then [log.upcoming kind message detail parent] else [] := by
  have handed : ∀ n : Nat, ((List.range n).map
      (Delivery.mk · (log.upcoming kind message detail parent))).filter (·.subscriber == i) =
        if i < n then [⟨i, log.upcoming kind message detail parent⟩] else [] := by
    intro n
    induction n with
    | zero => rfl
    | succ n ih =>
        rw [List.range_succ, List.map_append, List.filter_append, ih]
        by_cases last : n = i
        · simp [last]
        · have same : i < n + 1 ↔ i < n := by omega
          simp [last, same]
  have delivered : (log.add kind message detail parent).deliveries.toList =
      log.deliveries.toList ++ (List.range log.subscribers.length).map
        (Delivery.mk · (log.upcoming kind message detail parent)) := by
    simp [add, upcoming]
  rw [received, delivered, List.filter_append, handed, List.map_append, received]
  split <;> rfl

/-- An error is one entry, or two of which the second quotes the line below the first. -/
theorem report_cases (log : Log) (message : String) (place : Option Location) :
    let said := { log with hasError := true }.add .error message
    (log.upcomingQuote place = [] ∧ log.report message place = said) ∨
      ∃ quote, log.upcomingQuote place = [said.upcoming .error quote "" said.lastId] ∧
        log.report message place = said.add .error quote "" said.lastId := by
  intro said
  unfold report upcomingQuote
  cases place with
  | none => exact Or.inl ⟨rfl, rfl⟩
  | some loc =>
      have line : said.sourceLine? loc.line = log.sourceLine? loc.line := rfl
      dsimp only
      rw [line]
      cases log.sourceLine? loc.line with
      | none => exact Or.inl ⟨rfl, rfl⟩
      | some text => exact Or.inr ⟨caret text loc, rfl, rfl⟩

/-- What an entry does not change. -/
structure SameSettings (log log' : Log) : Prop where
  verbosity : log'.verbosity = log.verbosity
  capacity : log'.capacity = log.capacity
  source : log'.source = log.source
  subscribers : log'.subscribers = log.subscribers

namespace SameSettings

theorem listeners_le {log log' : Log} (same : SameSettings log log') :
    log.subscribers.length ≤ log'.subscribers.length := by
  rw [same.subscribers]

theorem showsSteps {log log' : Log} (same : SameSettings log log') :
    log'.showsSteps = log.showsSteps := by
  rw [Log.showsSteps, Log.showsSteps, same.verbosity]

theorem addStep (log : Log) (kind : Entry.Kind) (message detail : String) :
    SameSettings log (log.addStep kind message detail) := by
  unfold Log.addStep
  split <;> exact ⟨rfl, rfl, rfl, rfl⟩

theorem report (log : Log) (message : String) (place : Option Location) :
    SameSettings log (log.report message place) := by
  rcases log.report_cases message place with ⟨_, same⟩ | ⟨text, _, same⟩ <;> rw [same] <;>
    exact ⟨rfl, rfl, rfl, rfl⟩

end SameSettings

/-! ## Entries in order -/

/-- Between the two logs these entries were added. -/
structure Adds (es : List Entry) (log log' : Log) : Prop where
  lastId : log'.lastId = log.lastId + es.length
  ids : es.map (·.id) = List.range' (log.lastId + 1) es.length
  sequence : log'.sequence = log.sequence + es.length
  sequences : es.map (·.sequence) = List.range' (log.sequence + 1) es.length
  kept : ∃ part, part.Sublist es ∧ log'.entries.toList = log.entries.toList ++ part
  count : log'.entries.size + log'.dropped = log.entries.size + log.dropped + es.length

namespace Adds

variable {es fs : List Entry} {a b c : Log}

theorem refl (a : Log) : Adds [] a a where
  lastId := rfl
  ids := rfl
  sequence := rfl
  sequences := rfl
  kept := ⟨[], List.Sublist.refl [], (List.append_nil _).symm⟩
  count := rfl

theorem trans (first : Adds es a b) (second : Adds fs b c) : Adds (es ++ fs) a c where
  lastId := by
    rw [second.lastId, first.lastId, List.length_append, Nat.add_assoc]
  ids := by
    rw [List.map_append, first.ids, second.ids, first.lastId, List.length_append,
      List.range'_append_1.symm, Nat.add_right_comm]
  sequence := by
    rw [second.sequence, first.sequence, List.length_append, Nat.add_assoc]
  sequences := by
    rw [List.map_append, first.sequences, second.sequences, first.sequence, List.length_append,
      List.range'_append_1.symm, Nat.add_right_comm]
  kept := by
    obtain ⟨part, sub, same⟩ := first.kept
    obtain ⟨part', sub', same'⟩ := second.kept
    exact ⟨part ++ part', sub.append sub', by rw [same', same, List.append_assoc]⟩
  count := by
    rw [second.count, first.count, List.length_append, Nat.add_assoc]

theorem add (log : Log) (kind : Entry.Kind) (message detail : String) (parent : Nat) :
    Adds [log.upcoming kind message detail parent] log (log.add kind message detail parent) where
  lastId := rfl
  ids := rfl
  sequence := rfl
  sequences := rfl
  kept := by
    rw [entries_add]
    split
    · exact ⟨[], List.nil_sublist _, (List.append_nil _).symm⟩
    · exact ⟨_, List.Sublist.refl _, rfl⟩
  count := by
    unfold Log.add
    dsimp only
    split
    · simp only [List.length_singleton]
      omega
    · simp only [Array.size_push, List.length_singleton]
      omega

theorem step (log : Log) (kind : Entry.Kind) (message detail : String) :
    Adds (log.upcomingStep kind message detail) log (log.addStep kind message detail) := by
  unfold upcomingStep addStep
  split
  · exact add log kind message (log.explain detail) 0
  · exact refl log

theorem report (log : Log) (message : String) (place : Option Location) :
    Adds (log.upcoming .error message :: log.upcomingQuote place) log
      (log.report message place) := by
  have said : Adds [log.upcoming .error message] log
      ({ log with hasError := true }.add .error message) := by
    obtain ⟨lastId, ids, sequence, sequences, kept, count⟩ :=
      add { log with hasError := true } .error message "" 0
    exact ⟨lastId, ids, sequence, sequences, kept, count⟩
  rcases log.report_cases message place with ⟨quote, same⟩ | ⟨text, quote, same⟩
  · rw [quote, same]
    exact said
  · rw [quote, same]
    exact said.trans (add _ .error text "" _)

/-- What only changes how entries are taken in adds none. -/
theorem settings {log log' : Log} (lastId : log'.lastId = log.lastId)
    (sequence : log'.sequence = log.sequence) (entries : log'.entries = log.entries)
    (dropped : log'.dropped = log.dropped) : Adds [] log log' where
  lastId := lastId
  ids := rfl
  sequence := sequence
  sequences := rfl
  kept := ⟨[], List.Sublist.refl [], by rw [entries, List.append_nil]⟩
  count := by rw [entries, dropped, List.length_nil, Nat.add_zero]

theorem call {c : Call} (more : c ≠ .clear) (log : Log) : Adds (log.added c) log (log.call c) := by
  cases c with
  | add kind message detail parent => exact add log kind message detail parent
  | step kind message detail => exact step log kind message detail
  | freeRename old fresh => exact step log .freeRename _ ""
  | delta name expanded => exact step log .delta _ ""
  | equivalence names parent => exact add log .equivalence _ "" parent
  | report message place => exact report log message place
  | clear => exact absurd rfl more
  | _ => exact settings rfl rfl rfl rfl

theorem run {calls : List Call} (more : .clear ∉ calls) (log : Log) :
    Adds (log.history calls) log (log.run calls) := by
  induction calls generalizing log with
  | nil => exact refl log
  | cons c calls ih =>
      obtain ⟨first, rest⟩ := not_or.mp (mt List.mem_cons.mpr more)
      exact (call (Ne.symm first) log).trans (ih rest (log.call c))

/-- What is kept stays in order. -/
theorem pairwise_kept {f : Entry → Nat} {first : Nat} (numbers : es.map f = List.range' first es.length)
    {kept : List Entry} (sub : kept.Sublist es) : kept.Pairwise fun d e => f d < f e := by
  have increasing : es.Pairwise fun d e => f d < f e := by
    rw [← List.pairwise_map, numbers]
    exact List.pairwise_lt_range'
  exact increasing.sublist sub

end Adds

/-! ## Ids -/

/-- Ids go on when the log is cleared. -/
theorem ids_call (log : Log) (c : Call) : (log.call c).lastId = log.lastId + (log.added c).length ∧
    (log.added c).map (·.id) = List.range' (log.lastId + 1) (log.added c).length := by
  by_cases cleared : c = .clear
  · subst cleared
    exact ⟨rfl, rfl⟩
  · have adds := Adds.call cleared log
    exact ⟨adds.lastId, adds.ids⟩

theorem ids_history (log : Log) (calls : List Call) : (log.history calls).map (·.id) =
    List.range' (log.lastId + 1) (log.history calls).length := by
  induction calls generalizing log with
  | nil => rfl
  | cons c calls ih =>
      obtain ⟨lastId, ids⟩ := log.ids_call c
      rw [history, List.map_append, ids, ih, lastId, List.length_append, Nat.add_right_comm,
        List.range'_append_1]

/-! ## Errors -/

def Call.isReport : Call → Bool
  | .report _ _ => true
  | _ => false

theorem hasError_addStep (log : Log) (kind : Entry.Kind) (message detail : String) :
    (log.addStep kind message detail).hasError = log.hasError := by
  unfold addStep
  split <;> rfl

theorem hasError_report (log : Log) (message : String) (place : Option Location) :
    (log.report message place).hasError = true := by
  rcases log.report_cases message place with ⟨_, same⟩ | ⟨text, _, same⟩ <;> rw [same] <;> rfl

theorem hasError_call {c : Call} (more : c ≠ .clear) (log : Log) :
    (log.call c).hasError = (log.hasError || c.isReport) := by
  cases c with
  | report message place => rw [call, hasError_report, Call.isReport, Bool.or_true]
  | step kind message detail =>
      exact (hasError_addStep log kind message detail).trans (Bool.or_false _).symm
  | freeRename old fresh =>
      exact (hasError_addStep log .freeRename _ "").trans (Bool.or_false _).symm
  | delta name expanded => exact (hasError_addStep log .delta _ "").trans (Bool.or_false _).symm
  | clear => exact absurd rfl more
  | _ => exact (Bool.or_false log.hasError).symm

theorem hasError_run {calls : List Call} (more : .clear ∉ calls) (log : Log) :
    (log.run calls).hasError = (log.hasError || calls.any Call.isReport) := by
  induction calls generalizing log with
  | nil => exact (Bool.or_false log.hasError).symm
  | cons c calls ih =>
      obtain ⟨first, rest⟩ := not_or.mp (mt List.mem_cons.mpr more)
      rw [run, List.foldl_cons, ← run, ih rest, hasError_call (Ne.symm first), List.any_cons,
        Bool.or_assoc]

/-! ## Subscribers -/

theorem received_addStep (log : Log) (kind : Entry.Kind) (message detail : String) (i : Nat) :
    (log.addStep kind message detail).received i = log.received i ++
      if i < log.subscribers.length then log.upcomingStep kind message detail else [] := by
  unfold addStep upcomingStep
  split
  · exact received_add log kind message (log.explain detail) 0 i
  · simp

theorem received_report (log : Log) (message : String) (place : Option Location) (i : Nat) :
    (log.report message place).received i = log.received i ++
      if i < log.subscribers.length then log.upcoming .error message :: log.upcomingQuote place
      else [] := by
  have said : received ({ log with hasError := true }.add .error message) i = log.received i ++
      if i < log.subscribers.length then [log.upcoming .error message] else [] :=
    received_add { log with hasError := true } .error message "" 0 i
  rcases log.report_cases message place with ⟨quote, same⟩ | ⟨text, quote, same⟩
  · rw [quote, same]
    exact said
  · have subscribers : subscribers ({ log with hasError := true }.add .error message) =
        log.subscribers := rfl
    rw [quote, same, received_add, said, subscribers, List.append_assoc]
    split <;> rfl

theorem received_call (log : Log) (c : Call) (i : Nat) :
    (log.call c).received i = log.received i ++
      if i < log.subscribers.length then log.added c else [] := by
  cases c with
  | add kind message detail parent => exact received_add log kind message detail parent i
  | step kind message detail => exact received_addStep log kind message detail i
  | freeRename old fresh => exact received_addStep log .freeRename _ "" i
  | delta name expanded => exact received_addStep log .delta _ "" i
  | equivalence names parent => exact received_add log .equivalence _ "" parent i
  | report message place => exact received_report log message place i
  | _ => exact (List.append_nil _).symm.trans (congrArg _ (ite_self _).symm)

theorem subscribers_call (log : Log) (c : Call) :
    log.subscribers.length ≤ (log.call c).subscribers.length := by
  cases c with
  | step kind message detail => exact (SameSettings.addStep log kind message detail).listeners_le
  | freeRename old fresh => exact (SameSettings.addStep log .freeRename _ "").listeners_le
  | delta name expanded => exact (SameSettings.addStep log .delta _ "").listeners_le
  | report message place => exact (SameSettings.report log message place).listeners_le
  | subscribe name => simp [call, subscribe]
  | _ => exact Nat.le_refl _

/-- Those who listen hear everything from now on. -/
theorem received_run {i : Nat} {log : Log} (listens : i < log.subscribers.length)
    (calls : List Call) : (log.run calls).received i = log.received i ++ log.history calls := by
  induction calls generalizing log with
  | nil => exact (List.append_nil _).symm
  | cons c calls ih =>
      rw [run, List.foldl_cons, ← run, ih (Nat.lt_of_lt_of_le listens (log.subscribers_call c)),
        received_call, if_pos listens, history, List.append_assoc]

/-- Nothing has been delivered to those who do not listen yet. -/
theorem received_eq_nil {log : Log}
    (nothing : ∀ i, log.subscribers.length ≤ i → log.received i = []) (calls : List Call) :
    ∀ i, (log.run calls).subscribers.length ≤ i → (log.run calls).received i = [] := by
  induction calls generalizing log with
  | nil => exact nothing
  | cons c calls ih =>
      refine ih fun i later => ?_
      have silent := Nat.le_trans (log.subscribers_call c) later
      rw [received_call, nothing i silent, if_neg (by omega), List.append_nil]

/-! ## The capacity -/

/-- Only asking for a capacity changes it. -/
theorem capacity_call (log : Log) (c : Call) :
    (log.call c).capacity = (c.capacity?.map Int.toNat).getD log.capacity := by
  cases c with
  | step kind message detail => exact (SameSettings.addStep log kind message detail).capacity
  | freeRename old fresh => exact (SameSettings.addStep log .freeRename _ "").capacity
  | delta name expanded => exact (SameSettings.addStep log .delta _ "").capacity
  | report message place => exact (SameSettings.report log message place).capacity
  | _ => rfl

/-- The capacity is the one that was asked for last, and no limit below one. -/
theorem capacity_run (verbosity : Verbosity) (calls : List Call) :
    ((new verbosity).run calls).capacity = (lastCapacity calls).toNat := by
  induction calls using List.reverseRecOn with
  | nil => rfl
  | append_singleton calls c ih =>
      have last : (new verbosity).run (calls ++ [c]) = ((new verbosity).run calls).call c :=
        List.foldl_concat _ _ _ _
      rw [last, capacity_call, ih, lastCapacity, lastCapacity, List.filterMap_append]
      cases asked : c.capacity? with
      | none => simp [asked]
      | some capacity => simp [asked]

/-- Asking for the same capacity again makes no difference. -/
theorem lastCapacity_append {before : List Call} {capacity : Int}
    (last : lastCapacity before = capacity) {after : List Call}
    (same : ∀ k : Int, .setCapacity k ∈ after → k = capacity) :
    lastCapacity (before ++ after) = capacity := by
  rw [lastCapacity, List.filterMap_append, List.getLast?_append]
  cases asked : (after.filterMap Call.capacity?).getLast? with
  | none => exact last
  | some k =>
      obtain ⟨c, member, isAsked⟩ := List.mem_filterMap.mp (List.mem_of_getLast? asked)
      cases c with
      | setCapacity k' =>
          cases isAsked
          exact same k member
      | _ => cases isAsked

/-! ## A constant capacity -/

/-- As many of the entries before and of the new ones are held as there is room for. -/
def Holds (capacity : Nat) (es : List Entry) (log log' : Log) : Prop :=
  log'.entries.toList = (log.entries.toList ++ es).take capacity

namespace Holds

variable {capacity : Nat} {es fs : List Entry} {a b c : Log}

theorem size_le (holds : Holds capacity es a b) : b.entries.size ≤ capacity := by
  rw [← Array.length_toList, holds]
  exact List.length_take_le capacity _

theorem refl (room : a.entries.size ≤ capacity) : Holds capacity [] a a := by
  rw [Holds, List.append_nil, List.take_of_length_le room]

theorem trans (first : Holds capacity es a b) (second : Holds capacity fs b c) :
    Holds capacity (es ++ fs) a c := by
  have left : capacity - min capacity (a.entries.toList ++ es).length =
      capacity - (a.entries.toList ++ es).length := by omega
  rw [Holds, second, first, ← List.append_assoc, List.take_append, List.take_take,
    List.length_take, Nat.min_self, left, ← List.take_append]

theorem add {log : Log} (positive : 0 < capacity) (limit : log.capacity = capacity)
    (room : log.entries.size ≤ capacity) (kind : Entry.Kind) (message detail : String)
    (parent : Nat) : Holds capacity [log.upcoming kind message detail parent] log
      (log.add kind message detail parent) := by
  have full : log.isFull = decide (capacity ≤ log.entries.size) := by
    simp [isFull, limit, positive]
  rw [Holds, entries_add, full]
  by_cases reached : capacity ≤ log.entries.size
  · have size : log.entries.toList.length = capacity := Nat.le_antisymm room reached
    rw [if_pos (decide_eq_true reached), List.take_left' size]
  · have size : (log.entries.toList ++ [log.upcoming kind message detail parent]).length ≤
        capacity := by
      rw [List.length_append, Array.length_toList, List.length_singleton]
      omega
    rw [if_neg (by simpa using reached), List.take_of_length_le size]

theorem step {log : Log} (positive : 0 < capacity) (limit : log.capacity = capacity)
    (room : log.entries.size ≤ capacity) (kind : Entry.Kind) (message detail : String) :
    Holds capacity (log.upcomingStep kind message detail) log
      (log.addStep kind message detail) := by
  unfold upcomingStep addStep
  split
  · exact add positive limit room kind message (log.explain detail) 0
  · exact refl room

theorem report {log : Log} (positive : 0 < capacity) (limit : log.capacity = capacity)
    (room : log.entries.size ≤ capacity) (message : String) (place : Option Location) :
    Holds capacity (log.upcoming .error message :: log.upcomingQuote place) log
      (log.report message place) := by
  have said : Holds capacity [log.upcoming .error message] log
      ({ log with hasError := true }.add .error message) :=
    @add capacity { log with hasError := true } positive limit room .error message "" 0
  rcases log.report_cases message place with ⟨quote, same⟩ | ⟨text, quote, same⟩
  · rw [quote, same]
    exact said
  · rw [quote, same]
    refine said.trans (add positive ?_ said.size_le .error text "" _)
    exact limit

theorem call {log : Log} (positive : 0 < capacity) (limit : log.capacity = capacity)
    (room : log.entries.size ≤ capacity) {c : Call} (more : c ≠ .clear) :
    Holds capacity (log.added c) log (log.call c) := by
  cases c with
  | add kind message detail parent => exact add positive limit room kind message detail parent
  | step kind message detail => exact step positive limit room kind message detail
  | freeRename old fresh => exact step positive limit room .freeRename _ ""
  | delta name expanded => exact step positive limit room .delta _ ""
  | equivalence names parent => exact add positive limit room .equivalence _ "" parent
  | report message place => exact report positive limit room message place
  | clear => exact absurd rfl more
  | _ => exact refl room

theorem run {log : Log} (positive : 0 < capacity) (room : log.entries.size ≤ capacity)
    {calls : List Call} (more : .clear ∉ calls)
    (limit : ∀ part, part <+: calls → (log.run part).capacity = capacity) :
    Holds capacity (log.history calls) log (log.run calls) := by
  induction calls generalizing log with
  | nil => exact refl room
  | cons c calls ih =>
      obtain ⟨first, rest⟩ := not_or.mp (mt List.mem_cons.mpr more)
      have one := call positive (limit [] (List.nil_prefix)) room (Ne.symm first)
      refine one.trans (ih one.size_le rest fun part before => ?_)
      exact limit (c :: part) (List.cons_prefix_cons.mpr ⟨rfl, before⟩)

end Holds

/-! ## The last time the log was cleared -/

theorem upToClear_append_sinceClear (calls : List Call) :
    upToClear calls ++ sinceClear calls = calls :=
  List.rdropWhile_append_rtakeWhile

theorem clear_not_mem_sinceClear (calls : List Call) : .clear ∉ sinceClear calls := by
  intro member
  have passed := List.mem_rtakeWhile_imp member
  rw [Call.isClear_iff.mpr rfl] at passed
  cases passed

theorem run_append (log : Log) (before after : List Call) :
    log.run (before ++ after) = (log.run before).run after :=
  List.foldl_append

theorem history_append (log : Log) (before after : List Call) :
    log.history (before ++ after) = log.history before ++ (log.run before).history after := by
  induction before generalizing log with
  | nil => rfl
  | cons c before ih => exact (congrArg _ (ih _)).trans (List.append_assoc _ _ _).symm

/-- The log was empty then. -/
theorem run_upToClear (verbosity : Verbosity) (calls : List Call) :
    let start := (new verbosity).run (upToClear calls)
    start.entries = #[] ∧ start.sequence = 0 ∧ start.dropped = 0 ∧ start.hasError = false := by
  intro start
  by_cases none : upToClear calls = []
  · have same : start = new verbosity := congrArg (new verbosity).run none
    rw [same]
    exact ⟨rfl, rfl, rfl, rfl⟩
  · have last : ¬ (!((upToClear calls).getLast none).isClear) = true :=
      List.rdropWhile_last_not _ calls none
    have cleared : (upToClear calls).getLast none = .clear :=
      Call.isClear_iff.mp (by simpa using last)
    have same : start = ((new verbosity).run (upToClear calls).dropLast).clear := by
      have split := List.dropLast_append_getLast none
      rw [cleared] at split
      have ran := (new verbosity).run_append (upToClear calls).dropLast [.clear]
      rw [split] at ran
      exact ran
    rw [same]
    exact ⟨rfl, rfl, rfl, rfl⟩

/-- Who subscribes receives all entries that are added from then on, and no others. -/
theorem received_since_subscribe (verbosity : Verbosity) {calls before after : List Call}
    {name : String} (split : calls = before ++ .subscribe name :: after) :
    ((new verbosity).run calls).received ((new verbosity).run before).subscribers.length =
      ((new verbosity).run (before ++ [.subscribe name])).history after := by
  have listens : ((new verbosity).run before).subscribers.length <
      ((new verbosity).run (before ++ [.subscribe name])).subscribers.length := by
    rw [run_append]
    simp [run, call, subscribe]
  have silent : ((new verbosity).run (before ++ [.subscribe name])).received
      ((new verbosity).run before).subscribers.length = [] := by
    rw [run_append]
    exact received_eq_nil (fun i _ => rfl) before _ (Nat.le_refl _)
  have all : calls = (before ++ [.subscribe name]) ++ after := by rw [split]; simp
  have heard := received_run listens after
  rw [← run_append, ← all, silent, List.nil_append] at heard
  exact heard

/-- If a capacity was asked for before anything was added, and no other one since, then as many
of the first entries are kept. -/
theorem entries_of_capacity (verbosity : Verbosity) {calls lead rest : List Call}
    (split : sinceClear calls = lead ++ rest)
    (nothing : ((new verbosity).run (upToClear calls)).history lead = []) {capacity : Nat}
    (positive : 0 < capacity) (asked : lastCapacity (upToClear calls ++ lead) = capacity)
    (same : ∀ k : Int, .setCapacity k ∈ rest → k = capacity) :
    ((new verbosity).run calls).entries.toList =
      (((new verbosity).run (upToClear calls)).history (sinceClear calls)).take capacity := by
  obtain ⟨empty, _, _, _⟩ := run_upToClear verbosity calls
  obtain ⟨silent, further⟩ : .clear ∉ lead ∧ .clear ∉ rest :=
    not_or.mp (mt List.mem_append.mpr (split ▸ clear_not_mem_sinceClear calls))
  -- the log behind `lead` is still empty, and has the capacity that was asked for
  have still : ((new verbosity).run (upToClear calls ++ lead)).entries = #[] := by
    obtain ⟨part, sub, held⟩ := (Adds.run silent ((new verbosity).run (upToClear calls))).kept
    rw [nothing, List.sublist_nil] at sub
    rw [sub, empty, List.append_nil] at held
    rw [run_append]
    exact Array.toList_inj.mp held
  have constant : ∀ part, part <+: rest →
      (((new verbosity).run (upToClear calls ++ lead)).run part).capacity = capacity := by
    intro part before
    rw [← run_append, capacity_run,
      lastCapacity_append asked fun k member => same k (before.subset member)]
    exact Int.toNat_natCast capacity
  have room : ((new verbosity).run (upToClear calls ++ lead)).entries.size ≤ capacity := by
    rw [still]
    exact Nat.zero_le _
  have whole : upToClear calls ++ lead ++ rest = calls := by
    rw [List.append_assoc, ← split, upToClear_append_sinceClear]
  have holds := Holds.run positive room further constant
  rw [← run_append, whole, Holds, still, List.nil_append] at holds
  rw [holds, split, history_append, nothing, List.nil_append, run_append]

/-- After any calls the ids of all entries ever added are different.  The entries that are kept
were added since the log was cleared last; they are in order of ids and of sequence numbers,
which count the entries since then; kept and dropped ones together are all of them.  There is
an error exactly if one was reported since then.  Who subscribes receives all that is added
afterwards.  The capacity is the one that was asked for last, and if one was asked for before
anything was added, and no other since then, as many of the first entries are kept. -/
theorem run_kept (verbosity : Verbosity) (calls : List Call) :
    let log := (new verbosity).run calls
    let start := (new verbosity).run (upToClear calls)
    let recent := start.history (sinceClear calls)
    (((new verbosity).history calls).map (·.id)).Nodup ∧
    recent <:+ (new verbosity).history calls ∧
    log.entries.toList.Sublist recent ∧
    log.entries.toList.Pairwise (fun d e => d.id < e.id) ∧
    log.entries.toList.Pairwise (fun d e => d.sequence < e.sequence) ∧
    (∀ e ∈ log.entries.toList, 1 ≤ e.sequence ∧ e.sequence ≤ log.sequence) ∧
    log.sequence = recent.length ∧
    log.entries.size + log.dropped = recent.length ∧
    (log.hasError = true ↔ ∃ message place, .report message place ∈ sinceClear calls) ∧
    (∀ before name after, calls = before ++ .subscribe name :: after →
      log.received ((new verbosity).run before).subscribers.length =
        ((new verbosity).run (before ++ [.subscribe name])).history after) ∧
    log.capacity = (lastCapacity calls).toNat ∧
    ∀ lead rest, sinceClear calls = lead ++ rest → start.history lead = [] →
      ∀ capacity : Nat, 0 < capacity → lastCapacity (upToClear calls ++ lead) = capacity →
        (∀ k : Int, .setCapacity k ∈ rest → k = capacity) →
        log.entries.toList = recent.take capacity := by
  intro log start recent
  have more := clear_not_mem_sinceClear calls
  have ran : log = start.run (sinceClear calls) := by
    rw [← run_append, upToClear_append_sinceClear]
  obtain ⟨empty, sequence, dropped, noError⟩ :
    start.entries = #[] ∧ start.sequence = 0 ∧ start.dropped = 0 ∧ start.hasError = false :=
      run_upToClear verbosity calls
  have adds : Adds recent start log := ran ▸ Adds.run more start
  have kept : log.entries.toList.Sublist recent := by
    obtain ⟨part, sub, same⟩ := adds.kept
    rwa [same, empty, List.nil_append]
  have counted : log.sequence = recent.length := by rw [adds.sequence, sequence, Nat.zero_add]
  refine ⟨?_, ?_, kept, Adds.pairwise_kept adds.ids kept, Adds.pairwise_kept adds.sequences kept, ?_,
    counted, ?_, ?_, ?_, ?_, ?_⟩
  · rw [ids_history]
    exact List.nodup_range'
  · refine ⟨(new verbosity).history (upToClear calls), ?_⟩
    rw [← history_append, upToClear_append_sinceClear]
  · intro e member
    have numbered : e.sequence ∈ recent.map (·.sequence) := List.mem_map_of_mem (kept.subset member)
    rw [adds.sequences, List.mem_range'_1, sequence] at numbered
    rw [counted]
    omega
  · rw [adds.count, empty, dropped, List.size_toArray, List.length_nil, Nat.zero_add]
  · rw [ran, hasError_run more, noError, Bool.false_or, List.any_eq_true]
    constructor
    · rintro ⟨c, member, reported⟩
      cases c with
      | report message place => exact ⟨message, place, member⟩
      | _ => cases reported
    · rintro ⟨message, place, member⟩
      exact ⟨_, member, rfl⟩
  · exact fun before name after split => received_since_subscribe verbosity split
  · exact capacity_run verbosity calls
  · exact fun lead rest split nothing capacity positive asked same =>
      entries_of_capacity verbosity split nothing positive asked same

/-- Room for two is asked for, and three entries are added. -/
def crowded : List Call :=
  [.setCapacity 2, .add .normal "a" "" 0, .add .normal "b" "" 0, .add .normal "c" "" 0]

/-- The log is cleared, and three entries are added again. -/
def crowdedAgain : List Call :=
  crowded ++ [.clear, .report "d" none, .setCapacity 2, .add .normal "e" "" 0,
    .add .normal "f" "" 0]

theorem run_kept_crowded :
    (((new .low).run crowded).entries.toList.map (·.message) = ["a", "b"] ∧
      ((new .low).run crowded).dropped = 1) ∧
    ((new .low).run crowdedAgain).entries.toList.map (·.message) = ["d", "e"] ∧
      ((new .low).run crowdedAgain).dropped = 1 := by
  obtain ⟨-, -, -, -, -, -, -, -, -, -, -, limited⟩ := run_kept .low crowded
  obtain ⟨-, -, -, -, -, -, -, -, -, -, -, limitedAgain⟩ := run_kept .low crowdedAgain
  have first := limited [.setCapacity 2] crowded.tail rfl rfl 2 (by decide) rfl (by simp [crowded])
  have since : sinceClear crowdedAgain = [.report "d" none, .setCapacity 2,
      .add .normal "e" "" 0, .add .normal "f" "" 0] := by decide
  have second := limitedAgain [] _ since rfl 2 (by decide) rfl (by simp)
  exact ⟨⟨(congrArg (List.map (·.message)) first).trans rfl, rfl⟩,
    (congrArg (List.map (·.message)) second).trans rfl, rfl⟩

end UntypedLambda.Log
