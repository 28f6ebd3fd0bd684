import UntypedLambda.Proofs.Log.Quotes

/-! # Where entries stand

An entry stands alone, or below the entry right before it.  While a log has no limit and shows the
steps, what its entries are and where they stand can be told from the notes, and so can the
messages of its errors.

Main statement: `Grows.writeAll`. -/
set_option autoImplicit false

namespace UntypedLambda

/-- What an entry is, and where it stands: alone, below the entry right before it, or below
another one. -/
inductive Entry.Mark where
  | alone (kind : Entry.Kind)
  | below (kind : Entry.Kind)
  | astray (kind : Entry.Kind)
deriving DecidableEq, Repr, Inhabited

/-- The mark of an entry behind the one with the id `previous`. -/
def Entry.mark (previous : Nat) (e : Entry) : Entry.Mark :=
  if e.parent = 0 then .alone e.kind
  else if e.parent = previous then .below e.kind
  else .astray e.kind

namespace Log

open Entry (Mark)

def marks (previous : Nat) : List Entry → List Mark
  | [] => []
  | e :: es => e.mark previous :: marks e.id es

/-- The messages of the errors, without the lines quoted below them. -/
def reports (es : List Entry) : List String :=
  (es.filter fun e => e.kind == .error && e.parent == 0).map (·.message)

theorem reports_append (es fs : List Entry) : reports (es ++ fs) = reports es ++ reports fs := by
  rw [reports, List.filter_append, List.map_append, reports, reports]

/-- Entries whose marks do not depend on what is before them. -/
theorem marks_append (es : List Entry) {fs : List Entry} {ms : List Mark}
    (later : ∀ previous, marks previous fs = ms) (previous : Nat) :
    marks previous (es ++ fs) = marks previous es ++ ms := by
  induction es generalizing previous with
  | nil => exact later previous
  | cons e es ih => rw [List.cons_append, marks, marks, ih, List.cons_append]

/-! ## Marks of notes -/

namespace Note

/-- What is entered below the entry that the note leaves. -/
def child? (log : Log) : Note → Option Entry.Kind
  | result _ equal => if equal.isEmpty then none else some .equivalence
  | error e => ((error e).quotes? log).map fun _ => .error
  | _ => none

def marks (log : Log) (n : Note) : List Mark :=
  n.kind?.toList.map .alone ++ (n.child? log).toList.map .below

def report? : Note → Option String
  | error e => some e.message
  | _ => none

theorem marks_of_source {log log' : Log} (same : log'.source = log.source) :
    Note.marks log' = Note.marks log := by
  funext n
  cases n with
  | error e => rw [marks, marks, child?, child?, quotes?_of_source same]
  | _ => rfl

end Note

/-- Between the two logs, which show the steps and have no limit, entries with these marks were
added, and errors with these messages among them. -/
structure Grows (ms : List Mark) (messages : List String) (log log' : Log) : Prop where
  source : log'.source = log.source
  unlimited : log'.capacity = 0
  shown : log'.showsSteps = true
  hasError : log'.hasError = (log.hasError || !messages.isEmpty)
  added : ∃ es, log'.entries.toList = log.entries.toList ++ es ∧
    (∀ previous, marks previous es = ms) ∧ reports es = messages

namespace Grows

variable {ms ms' : List Mark} {messages messages' : List String} {a b c : Log}

theorem refl (unlimited : a.capacity = 0) (shown : a.showsSteps = true) : Grows [] [] a a where
  source := rfl
  unlimited := unlimited
  shown := shown
  hasError := (Bool.or_false _).symm
  added := ⟨[], (List.append_nil _).symm, fun _ => rfl, rfl⟩

theorem trans (first : Grows ms messages a b) (second : Grows ms' messages' b c) :
    Grows (ms ++ ms') (messages ++ messages') a c := by
  obtain ⟨es, grown, marked, reported⟩ := first.added
  obtain ⟨fs, grown', marked', reported'⟩ := second.added
  refine ⟨second.source.trans first.source, second.unlimited, second.shown, ?_, es ++ fs, ?_,
    fun previous => ?_, ?_⟩
  · rw [second.hasError, first.hasError]
    cases messages <;> simp
  · rw [grown', grown, List.append_assoc]
  · rw [marks_append es marked', marked]
  · rw [reports_append, reported, reported']

variable {log : Log} (unlimited : log.capacity = 0) (shown : log.showsSteps = true)
include unlimited shown

theorem add {kind : Entry.Kind} (noError : kind ≠ .error) (message detail : String) :
    Grows [.alone kind] [] log (log.add kind message detail) where
  source := rfl
  unlimited := unlimited
  shown := shown
  hasError := (Bool.or_false _).symm
  added := by
    refine ⟨_, Filters.entries_unlimited unlimited kind message detail 0, fun _ => rfl, ?_⟩
    simp [reports, upcoming, noError]

theorem addStep {kind : Entry.Kind} (noError : kind ≠ .error) (message detail : String) :
    Grows [.alone kind] [] log (log.addStep kind message detail) := by
  rw [Log.addStep, if_pos shown]
  exact add unlimited shown noError message _

theorem addEquivalence (message : String) (names : List String) :
    Grows [.alone .result, .below .equivalence] [] log
      ((log.add .result message).addEquivalence names (log.add .result message).lastId) where
  source := rfl
  unlimited := unlimited
  shown := shown
  hasError := (Bool.or_false _).symm
  added := by
    refine ⟨_, Quotes.entries_addBelow unlimited .result .equivalence message _, fun _ => ?_, rfl⟩
    simp [marks, Entry.mark, upcoming, Log.add]

theorem reportError (e : Error) :
    Grows (Note.marks log (.error e)) [e.message] log (log.reportError e) := by
  have marked : ({ log with hasError := true } : Log).capacity = 0 := unlimited
  have child : Note.child? log (.error e) = (log.place? e).map fun _ => .error := by
    rw [Note.child?, Note.quotes?, Option.map_map]
    rfl
  rw [reportError_eq, Note.marks, child]
  cases log.place? e with
  | none =>
      refine ⟨rfl, unlimited, shown, (Bool.or_true _).symm, _,
        Filters.entries_unlimited marked .error e.message "" 0, fun _ => rfl, rfl⟩
  | some place =>
      refine ⟨rfl, unlimited, shown, (Bool.or_true _).symm, _,
        Quotes.entries_addBelow marked .error .error e.message _, fun _ => ?_, ?_⟩
      · simp [marks, Entry.mark, upcoming, Log.add, Note.kind?]
      · simp [reports, upcoming, Log.add]

theorem write {n : Note} (plain : n.Plain) :
    Grows (n.marks log) n.report?.toList log (log.write n) := by
  cases n with
  | clear => exact plain.elim
  | source text => exact plain.elim
  | settings verbosity capacity => exact plain.elim
  | input echo => exact add unlimited shown Entry.Kind.noConfusion echo ""
  | parsed t => exact add unlimited shown Entry.Kind.noConfusion t.text ""
  | output text => exact add unlimited shown Entry.Kind.noConfusion text ""
  | unfolding u => exact addStep unlimited shown Entry.Kind.noConfusion _ ""
  | summary t => exact addStep unlimited shown Entry.Kind.noConfusion t.text ""
  | event e =>
      cases e with
      | alpha root binder fresh old => exact addStep unlimited shown Entry.Kind.noConfusion _ _
      | beta root arg fn => exact addStep unlimited shown Entry.Kind.noConfusion _ _
      | free old fresh => exact addStep unlimited shown Entry.Kind.noConfusion _ ""
  | result t equal =>
      unfold Note.marks Note.child? Log.write
      dsimp only
      split
      · exact add unlimited shown Entry.Kind.noConfusion t.text ""
      · exact addEquivalence unlimited shown t.text equal
  | error e => exact reportError unlimited shown e

theorem writeAll {notes : List Note} (plain : ∀ n ∈ notes, n.Plain) :
    Grows (notes.flatMap (Note.marks log)) (notes.filterMap Note.report?) log
      (log.writeAll notes) := by
  induction notes generalizing log with
  | nil => exact refl unlimited shown
  | cons n notes ih =>
      have first := write unlimited shown (plain n List.mem_cons_self)
      have rest := ih first.unlimited first.shown fun n member =>
        plain n (List.mem_cons_of_mem _ member)
      rw [Note.marks_of_source first.source] at rest
      have both := first.trans rest
      rw [List.filterMap_cons]
      cases report : n.report? with
      | none =>
          rw [report] at both
          exact both
      | some message =>
          rw [report] at both
          exact both

end Grows

end Log

end UntypedLambda
