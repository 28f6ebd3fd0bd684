import Mathlib.Data.List.Forall2
import UntypedLambda.Proofs.Log.Levels

/-! # Errors and the lines below them

A log that knows the source enters an error with the line of its place and carets right below.
While a log has no limit and keeps its source, the errors with a line below are just those that
were noted with a place in the source.

Main statement: `Quotes.writeAll`. -/
set_option autoImplicit false

namespace UntypedLambda

/-! ## A line and the carets below it -/

namespace Log

/-- The characters of a line that have a caret below them. -/
def above (line row : List Char) : List Char := ((line.zip row).filter (·.2 == '^')).map Prod.fst

def row (spaces carets : Nat) : List Char := List.replicate spaces ' ' ++ List.replicate carets '^'

theorem above_carets (part after : List Char) :
    above (part ++ after) (List.replicate part.length '^') = part := by
  induction part with
  | nil => simp [above]
  | cons c part ih =>
      rw [above] at ih
      rw [above, List.length_cons, List.replicate_succ, List.cons_append, List.zip_cons_cons,
        List.filter_cons_of_pos (by rfl), List.map_cons, ih]

theorem above_row (before part after : List Char) :
    above (before ++ (part ++ after)) (row before.length part.length) = part := by
  have spaces : (before.zip (List.replicate before.length ' ')).filter (·.2 == '^') = [] := by
    rw [List.filter_eq_nil_iff]
    rintro ⟨c, d⟩ member
    have blank := List.eq_of_mem_replicate (List.of_mem_zip member).2
    simp [blank]
  have rest := above_carets part after
  unfold above at rest
  unfold above row
  rw [List.zip_append (by simp), List.filter_append, spaces, List.nil_append, rest]

/-- How many carets mark a place. -/
def carets (loc : Location) : Nat := (max loc.length 1).toNat + if loc.atEnd then 1 else 0

theorem carets_pos (loc : Location) : 0 < carets loc := by
  unfold carets
  omega

theorem caret_eq (line : String) (loc : Location) :
    caret line loc = line ++ "\n" ++ String.ofList (row (loc.col - 1).toNat (carets loc)) := by
  unfold caret row carets
  cases loc.atEnd with
  | false => simp
  | true => simp [List.replicate_add]

/-! ## Errors and the lines below them -/

/-- The entries that quote the source, each with the entry above. -/
def quoted : List Entry → List (Entry × Entry)
  | d :: q :: rest =>
    if q.kind = .error ∧ q.parent ≠ 0 then (d, q) :: quoted (q :: rest) else quoted (q :: rest)
  | _ => []

/-- The first entry, if there is one, stands below no other. -/
def Topmost (es : List Entry) : Prop := ∀ e ∈ es.head?, e.parent = 0

theorem quoted_append (es : List Entry) {fs : List Entry} (topmost : Topmost fs) :
    quoted (es ++ fs) = quoted es ++ quoted fs := by
  induction es with
  | nil => rfl
  | cons d es ih =>
      cases es with
      | nil =>
          cases fs with
          | nil => rfl
          | cons q fs =>
              have alone : q.parent = 0 := topmost q rfl
              simp [quoted, alone]
      | cons q es =>
          simp only [List.cons_append, quoted] at ih ⊢
          rw [ih]
          split <;> rfl

/-- The error is entered above, and the line of its place below. -/
structure Reported (lines : List String) (e : Error) (pair : Entry × Entry) : Prop where
  upper : pair.1.kind = .error ∧ pair.1.parent = 0 ∧ pair.1.message = e.message
  lower : pair.2.kind = .error ∧ pair.2.parent = pair.1.id
  quote : ∃ (loc : Location) (i : Nat) (line : String), e.location? = some loc ∧
    loc.line = (1 + i : Nat) ∧ lines[i]? = some line ∧ pair.2.message = caret line loc

/-- The line that an error is about, and the place in it. -/
def place? (log : Log) (e : Error) : Option (String × Location) :=
  match e.location? with
  | none => none
  | some loc => (log.sourceLine? loc.line).map (·, loc)

theorem place?_eq_some {log : Log} {e : Error} {place : String × Location}
    (found : log.place? e = some place) : ∃ i, e.location? = some place.2 ∧
      place.2.line = (1 + i : Nat) ∧ log.source[i]? = some place.1 := by
  unfold place? at found
  split at found
  · cases found
  · rename_i loc located
    obtain ⟨line, quoted, rfl⟩ := Option.map_eq_some_iff.mp found
    unfold sourceLine? at quoted
    split at quoted
    · cases quoted
    · have number : loc.line = (1 + (loc.line - 1).toNat : Nat) := by omega
      exact ⟨(loc.line - 1).toNat, located, number, quoted⟩

theorem reportError_eq (log : Log) (e : Error) : log.reportError e =
    let said := { log with hasError := true }.add .error e.message
    match log.place? e with
    | none => said
    | some (line, loc) => said.add .error (caret line loc) "" said.lastId := by
  have line : ∀ k, ({ log with hasError := true }.add .error e.message).sourceLine? k =
      log.sourceLine? k := fun _ => rfl
  unfold reportError report place?
  cases e.location? with
  | none => rfl
  | some loc =>
      dsimp only
      rw [line]
      cases log.sourceLine? loc.line <;> rfl

/-- The error that a note enters, if a line is quoted below it. -/
def Note.quotes? (log : Log) : Note → Option Error
  | .error e => (log.place? e).map fun _ => e
  | _ => none

theorem Note.quotes?_of_source {log log' : Log} (same : log'.source = log.source) :
    Note.quotes? log' = Note.quotes? log := by
  have line : ∀ k, log'.sourceLine? k = log.sourceLine? k := by
    intro k
    rw [sourceLine?, sourceLine?, same]
  funext n
  cases n <;> simp only [Note.quotes?, place?, line]

/-- The note leaves the source and the limit as they are. -/
def Note.Plain : Note → Prop
  | .clear | .source _ | .settings _ _ => False
  | _ => True

/-- Between the two logs, which have the same source and no limit, entries were added in which
just these errors are quoted. -/
structure Quotes (errors : List Error) (log log' : Log) : Prop where
  source : log'.source = log.source
  unlimited : log'.capacity = 0
  added : ∃ es, log'.entries.toList = log.entries.toList ++ es ∧ Topmost es ∧
    List.Forall₂ (Reported log.source) errors (quoted es)

namespace Quotes

variable {errors more : List Error} {a b c : Log}

theorem refl (unlimited : a.capacity = 0) : Quotes [] a a where
  source := rfl
  unlimited := unlimited
  added := ⟨[], (List.append_nil _).symm, fun e member => by simp at member, .nil⟩

theorem trans (first : Quotes errors a b) (second : Quotes more b c) :
    Quotes (errors ++ more) a c := by
  obtain ⟨es, grown, top, reported⟩ := first.added
  obtain ⟨fs, grown', top', reported'⟩ := second.added
  refine ⟨second.source.trans first.source, second.unlimited, es ++ fs, ?_, ?_, ?_⟩
  · rw [grown', grown, List.append_assoc]
  · intro e member
    cases es with
    | nil => exact top' e member
    | cons d es => exact top e member
  · rw [quoted_append es top']
    rw [first.source] at reported'
    exact List.rel_append reported reported'

variable {log : Log} (unlimited : log.capacity = 0)
include unlimited

theorem add (kind : Entry.Kind) (message detail : String) :
    Quotes [] log (log.add kind message detail) where
  source := rfl
  unlimited := unlimited
  added := by
    refine ⟨_, Filters.entries_unlimited unlimited kind message detail 0, ?_, .nil⟩
    rintro e ⟨⟩
    rfl

theorem addStep (kind : Entry.Kind) (message detail : String) :
    Quotes [] log (log.addStep kind message detail) := by
  unfold Log.addStep
  split
  · exact add unlimited kind message _
  · exact refl unlimited

/-- Two entries, of which the second stands below the first. -/
theorem entries_addBelow (kind kind' : Entry.Kind) (message message' : String) :
    ((log.add kind message).add kind' message' "" (log.add kind message).lastId).entries.toList =
      log.entries.toList ++ [log.upcoming kind message,
        (log.add kind message).upcoming kind' message' "" (log.add kind message).lastId] := by
  have unlimited' : (log.add kind message).capacity = 0 := unlimited
  rw [Filters.entries_unlimited unlimited', Filters.entries_unlimited unlimited, List.append_assoc]
  rfl

theorem addEquivalence (message : String) (names : List String) :
    Quotes [] log ((log.add .result message).addEquivalence names
      (log.add .result message).lastId) where
  source := rfl
  unlimited := unlimited
  added := by
    refine ⟨_, entries_addBelow unlimited .result .equivalence message _, ?_, .nil⟩
    rintro e ⟨⟩
    rfl

theorem reportError (e : Error) :
    Quotes (Note.quotes? log (.error e)).toList log (log.reportError e) := by
  have marked : ({ log with hasError := true } : Log).capacity = 0 := unlimited
  have quotes : Note.quotes? log (.error e) = (log.place? e).map fun _ => e := rfl
  rw [reportError_eq, quotes]
  cases found : log.place? e with
  | none => exact ⟨rfl, unlimited, (add marked .error e.message "").added⟩
  | some place =>
      obtain ⟨i, located, first, line⟩ := place?_eq_some found
      refine ⟨rfl, unlimited, _, entries_addBelow marked .error .error e.message _, ?_, ?_⟩
      · rintro e ⟨⟩
        rfl
      · refine .cons ?_ .nil
        exact ⟨⟨rfl, rfl, rfl⟩, ⟨rfl, rfl⟩, place.2, i, place.1, located, first, line, rfl⟩

theorem write {n : Note} (plain : n.Plain) :
    Quotes (n.quotes? log).toList log (log.write n) := by
  cases n with
  | clear => exact plain.elim
  | source text => exact plain.elim
  | settings verbosity capacity => exact plain.elim
  | input echo => exact add unlimited .input echo ""
  | parsed t => exact add unlimited .parsed t.text ""
  | output text => exact add unlimited .normal text ""
  | unfolding u => exact addStep unlimited .delta _ ""
  | summary t => exact addStep unlimited .deltaSummary t.text ""
  | event e =>
      cases e with
      | alpha root binder fresh old => exact addStep unlimited .alpha _ _
      | beta root arg fn => exact addStep unlimited .beta _ _
      | free old fresh => exact addStep unlimited .freeRename _ ""
  | result t equal =>
      unfold Log.write
      dsimp only
      split
      · exact add unlimited .result t.text ""
      · exact addEquivalence unlimited t.text equal
  | error e => exact reportError unlimited e

theorem writeAll {notes : List Note} (plain : ∀ n ∈ notes, n.Plain) :
    Quotes (notes.filterMap (Note.quotes? log)) log (log.writeAll notes) := by
  induction notes generalizing log with
  | nil => exact refl unlimited
  | cons n notes ih =>
      have first := write unlimited (plain n List.mem_cons_self)
      have rest := ih first.unlimited fun n member => plain n (List.mem_cons_of_mem _ member)
      -- the source is the same after the first note, so the others quote what they would before
      rw [Note.quotes?_of_source first.source] at rest
      have both := first.trans rest
      rw [List.filterMap_cons]
      cases found : n.quotes? log with
      | none =>
          rw [found] at both
          exact both
      | some e =>
          rw [found] at both
          exact both

end Quotes

end Log

end UntypedLambda
