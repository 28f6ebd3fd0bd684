import UntypedLambda.Proofs.Log
import UntypedLambda.Proofs.Log.Notes

/-! # One derivation at two levels

A log at a lower level has the entries of a log at a higher one that was told the same, without
the steps that it does not show and the details that it does not explain.  Ids differ where steps
are left out, but an entry that stands below another one does so in both.

Main statement: `Filters.writeAll`. -/
set_option autoImplicit false

namespace UntypedLambda

/-- The kinds of entry that only some levels show. -/
def Entry.Kind.isStep : Entry.Kind → Bool
  | alpha | beta | freeRename | delta | deltaSummary => true
  | _ => false

namespace Verbosity

def shows (v : Verbosity) (kind : Entry.Kind) : Bool := v.atLeast .low || !kind.isStep

def abridge (v : Verbosity) (e : Entry) : Entry :=
  { e with detail := if v.atLeast .high then e.detail else "" }

/-- What is seen of entries at a level. -/
def view (v : Verbosity) (es : List Entry) : List Entry :=
  (es.filter (v.shows ·.kind)).map v.abridge

theorem view_append (v : Verbosity) (es fs : List Entry) :
    v.view (es ++ fs) = v.view es ++ v.view fs := by
  rw [view, List.filter_append, List.map_append, view, view]

theorem view_singleton {v : Verbosity} {e : Entry} (shown : v.shows e.kind = true) :
    v.view [e] = [v.abridge e] := by
  simp [view, shown]

theorem view_singleton_of_not_shows {v : Verbosity} {e : Entry} (left : v.shows e.kind = false) :
    v.view [e] = [] := by
  simp [view, left]

theorem shows_of_not_isStep (v : Verbosity) {kind : Entry.Kind} (plain : kind.isStep = false) :
    v.shows kind = true := by
  rw [shows, plain, Bool.not_false, Bool.or_true]

theorem view_of_lt_low {v : Verbosity} (below : v.level < low.level) (es : List Entry) :
    (v.view es).map (fun e => (e.kind, e.message)) =
      (es.map fun e => (e.kind, e.message)).filter (!·.1.isStep) := by
  have silent : v.atLeast .low = false := decide_eq_false (Int.not_le.mpr below)
  have shown : (fun e : Entry => v.shows e.kind) = fun e => !e.kind.isStep := by
    funext e
    rw [shows, silent, Bool.false_or]
  rw [view, List.map_map, shown, List.filter_map]
  rfl

theorem view_low (es : List Entry) : (low.view es).map Entry.content =
    (es.map Entry.content).map fun c => { c with detail := "" } := by
  have shown : (fun e : Entry => low.shows e.kind) = fun _ => true := rfl
  rw [view, shown, List.filter_true, List.map_map, List.map_map]
  rfl

theorem atLeast_of_le {v w least : Verbosity} (le : v.level ≤ w.level)
    (reached : v.atLeast least = true) : w.atLeast least = true :=
  decide_eq_true (Int.le_trans (of_decide_eq_true reached) le)

end Verbosity

namespace Log

/-! ## Entries that correspond -/

/-- Both stand alone, or both stand below the entry at the same place. -/
def SameParent (xs ys : List Entry) (d e : Entry) : Prop :=
  d.parent = 0 ∧ e.parent = 0 ∨ ∃ (place : Nat) (p q : Entry),
    xs[place]? = some p ∧ ys[place]? = some q ∧ d.parent = p.id ∧ e.parent = q.id

/-- The same entries, but for ids and sequence numbers. -/
structure Corresponds (xs ys : List Entry) : Prop where
  contents : xs.map Entry.content = ys.map Entry.content
  parents : ∀ (i : Nat) (d e : Entry), xs[i]? = some d → ys[i]? = some e →
    SameParent (xs.take i) (ys.take i) d e

namespace Corresponds

variable {xs ys : List Entry}

theorem nil : Corresponds [] [] := ⟨rfl, fun _ _ _ found => nomatch found⟩

theorem length_eq (corresponds : Corresponds xs ys) : xs.length = ys.length := by
  simpa using congrArg List.length corresponds.contents

theorem push (corresponds : Corresponds xs ys) {d e : Entry} (content : d.content = e.content)
    (parent : SameParent xs ys d e) : Corresponds (xs ++ [d]) (ys ++ [e]) where
  contents := by
    rw [List.map_append, List.map_append, corresponds.contents, List.map_singleton, content,
      List.map_singleton]
  parents := by
    intro i d' e' found found'
    have length := corresponds.length_eq
    rcases Nat.lt_trichotomy i xs.length with before | here | beyond
    · rw [List.getElem?_append_left before] at found
      rw [List.getElem?_append_left (length ▸ before)] at found'
      rw [List.take_append_of_le_length (Nat.le_of_lt before),
        List.take_append_of_le_length (Nat.le_of_lt (length ▸ before))]
      exact corresponds.parents i d' e' found found'
    · rw [here, List.getElem?_concat_length] at found
      rw [here, length, List.getElem?_concat_length] at found'
      cases found
      cases found'
      rw [List.take_left' here.symm, List.take_left' (here.trans length).symm]
      exact parent
    · rw [List.getElem?_eq_none (by simp; omega)] at found
      cases found

end Corresponds

/-! ## Logs that are told the same -/

/-- The first log has the entries of the second, as far as its level goes. -/
structure Filters (a b : Log) : Prop where
  level : a.verbosity.level ≤ b.verbosity.level
  unlimited : a.capacity = 0 ∧ b.capacity = 0
  source : a.source = b.source
  entries : Corresponds a.entries.toList (a.verbosity.view b.entries.toList)

namespace Filters

theorem entries_unlimited {log : Log} (unlimited : log.capacity = 0) (kind : Entry.Kind)
    (message detail : String) (parent : Nat) :
    (log.add kind message detail parent).entries.toList =
      log.entries.toList ++ [log.upcoming kind message detail parent] := by
  rw [entries_add, isFull, unlimited, if_neg (by simp)]

variable {a b : Log} (filters : Filters a b)
include filters

/-- An entry that both logs get and the first one shows. -/
theorem push {kind : Entry.Kind} (shown : a.verbosity.shows kind = true) (message : String)
    {detail detail' : String} {parent parent' : Nat}
    (abridged : detail = if a.verbosity.atLeast .high then detail' else "")
    (same : SameParent a.entries.toList (a.verbosity.view b.entries.toList)
      (a.upcoming kind message detail parent) (b.upcoming kind message detail' parent')) :
    Filters (a.add kind message detail parent) (b.add kind message detail' parent') where
  level := filters.level
  unlimited := filters.unlimited
  source := filters.source
  entries := by
    have verbosity : (a.add kind message detail parent).verbosity = a.verbosity := rfl
    rw [verbosity, entries_unlimited filters.unlimited.1, entries_unlimited filters.unlimited.2,
      Verbosity.view_append, Verbosity.view_singleton shown]
    refine filters.entries.push ?_ same
    simp only [Entry.content, upcoming, Verbosity.abridge, abridged]

theorem add {kind : Entry.Kind} (plain : kind.isStep = false) (message : String) :
    Filters (a.add kind message) (b.add kind message) :=
  filters.push (a.verbosity.shows_of_not_isStep plain) message (ite_self "").symm
    (Or.inl ⟨rfl, rfl⟩)

/-- Two entries, of which the second stands below the first. -/
theorem addBelow {kind kind' : Entry.Kind} (plain : kind.isStep = false)
    (plain' : kind'.isStep = false) (message message' : String) :
    Filters ((a.add kind message).add kind' message' "" (a.add kind message).lastId)
      ((b.add kind message).add kind' message' "" (b.add kind message).lastId) := by
  refine (filters.add plain message).push (Verbosity.shows_of_not_isStep _ plain') message'
    (ite_self "").symm (Or.inr ⟨a.entries.toList.length, a.upcoming kind message,
      a.verbosity.abridge (b.upcoming kind message), ?_, ?_, rfl, rfl⟩)
  · rw [entries_unlimited filters.unlimited.1, List.getElem?_concat_length]
  · have verbosity : (a.add kind message).verbosity = a.verbosity := rfl
    rw [verbosity, entries_unlimited filters.unlimited.2, Verbosity.view_append,
      Verbosity.view_singleton (a.verbosity.shows_of_not_isStep plain), filters.entries.length_eq,
      List.getElem?_concat_length]

theorem addStep {kind : Entry.Kind} (isStep : kind.isStep = true) (message detail : String) :
    Filters (a.addStep kind message detail) (b.addStep kind message detail) := by
  have shows : a.verbosity.shows kind = a.showsSteps := by
    rw [Verbosity.shows, isStep, Bool.not_true, Bool.or_false, showsSteps]
  unfold Log.addStep
  cases shownA : a.showsSteps with
  | true =>
      have shownB : b.showsSteps = true := Verbosity.atLeast_of_le filters.level shownA
      rw [if_pos rfl, if_pos shownB]
      refine filters.push (shows.trans shownA) message ?_ (Or.inl ⟨rfl, rfl⟩)
      -- what the first log explains the second one explains too
      unfold explain
      cases explained : a.verbosity.atLeast .high with
      | true =>
          rw [Verbosity.atLeast_of_le filters.level explained]
          rfl
      | false => rfl
  | false =>
      rw [if_neg (by simp)]
      split
      · refine ⟨filters.level, filters.unlimited, filters.source, ?_⟩
        rw [entries_unlimited filters.unlimited.2, Verbosity.view_append,
          Verbosity.view_singleton_of_not_shows (shows.trans shownA), List.append_nil]
        exact filters.entries
      · exact filters

theorem report (message : String) (place : Option Location) :
    Filters (a.report message place) (b.report message place) := by
  have marked : Filters { a with hasError := true } { b with hasError := true } :=
    ⟨filters.level, filters.unlimited, filters.source, filters.entries⟩
  have said : Filters ({ a with hasError := true }.add .error message)
      ({ b with hasError := true }.add .error message) := marked.add rfl message
  unfold Log.report
  cases place with
  | none => exact said
  | some loc =>
      have line : sourceLine? ({ a with hasError := true }.add .error message) loc.line =
          sourceLine? ({ b with hasError := true }.add .error message) loc.line := by
        rw [Log.sourceLine?, Log.sourceLine?, said.source]
      dsimp only
      rw [line]
      split
      · exact said
      · exact marked.addBelow rfl rfl message _

theorem write {n : Note} (notSettings : ∀ verbosity capacity, n ≠ .settings verbosity capacity) :
    Filters (a.write n) (b.write n) := by
  cases n with
  | clear => exact ⟨filters.level, filters.unlimited, filters.source, .nil⟩
  | source text => exact ⟨filters.level, filters.unlimited, rfl, filters.entries⟩
  | settings verbosity capacity => exact absurd rfl (notSettings verbosity capacity)
  | input echo => exact filters.add rfl echo
  | parsed t => exact filters.add rfl t.text
  | output text => exact filters.add rfl text
  | unfolding u => exact filters.addStep rfl _ ""
  | summary t => exact filters.addStep rfl t.text ""
  | event e =>
      cases e with
      | alpha root binder fresh old => exact filters.addStep rfl _ _
      | beta root arg fn => exact filters.addStep rfl _ _
      | free old fresh => exact filters.addStep rfl _ ""
  | result t equal =>
      unfold Log.write
      dsimp only
      split
      · exact filters.add rfl t.text
      · exact filters.addBelow rfl rfl t.text _
  | error e => exact filters.report e.message e.location?

theorem writeAll {notes : List Note}
    (notSettings : ∀ verbosity capacity, .settings verbosity capacity ∉ notes) :
    Filters (a.writeAll notes) (b.writeAll notes) := by
  induction notes generalizing a b with
  | nil => exact filters
  | cons n notes ih =>
      have first := filters.write fun verbosity capacity same =>
        notSettings verbosity capacity (same ▸ List.mem_cons_self)
      exact ih first fun verbosity capacity member =>
        notSettings verbosity capacity (List.mem_cons_of_mem _ member)

end Filters

end Log

end UntypedLambda
