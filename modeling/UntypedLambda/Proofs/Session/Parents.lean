import UntypedLambda.Proofs.Session.Verbosity

/-! # Entries that stand below another one

A line that is quoted stands below an error, and the names that a result is equivalent to stand
below that result.  The lower entry is added right after the upper one, and if there is no room
for the upper one there is none for the lower one either.  So, whatever limits a log has had, an
entry with a parent stands right behind it.

Main statement: `parent_precedes`. -/
set_option autoImplicit false

namespace UntypedLambda

/-- The entry quotes the source of an error, or tells what a result is equivalent to. -/
inductive Entry.Below : Entry → Entry → Prop where
  | quote {e d : Entry} (parent : e.parent = d.id) (upper : d.kind = .error)
      (lower : e.kind = .error) (line : String) (loc : Location)
      (message : e.message = Log.caret line loc) : Below e d
  | equivalence {e d : Entry} (parent : e.parent = d.id) (upper : d.kind = .result)
      (lower : e.kind = .equivalence) : Below e d

theorem Entry.Below.parent_eq {e d : Entry} (below : e.Below d) : e.parent = d.id := by
  cases below with
  | quote parent => exact parent
  | equivalence parent => exact parent

namespace Log

/-! ## One log -/

/-- Every entry that has a parent stands right behind it. -/
def Attached (es : List Entry) : Prop :=
  ∀ i e, es[i]? = some e → e.parent ≠ 0 → ∃ j d, i = j + 1 ∧ es[j]? = some d ∧ e.Below d

namespace Attached

variable {es : List Entry}

theorem nil : Attached [] := fun i e found => by simp at found

theorem push (attached : Attached es) {e : Entry}
    (parent : e.parent = 0 ∨ ∃ d, es.getLast? = some d ∧ e.Below d) : Attached (es ++ [e]) := by
  intro i f found child
  by_cases old : i < es.length
  · rw [List.getElem?_append_left old] at found
    obtain ⟨j, d, next, above, below⟩ := attached i f found child
    refine ⟨j, d, next, ?_, below⟩
    rwa [List.getElem?_append_left (by omega)]
  · rw [List.getElem?_append_right (by omega), List.getElem?_singleton] at found
    split at found
    · rename_i last
      cases found
      obtain ⟨d, above, below⟩ := parent.resolve_left child
      have nonempty : es ≠ [] := by
        rintro rfl
        simp at above
      have positive := List.length_pos_of_ne_nil nonempty
      refine ⟨es.length - 1, d, by omega, ?_, below⟩
      rw [List.getElem?_append_left (by omega), ← above, List.getLast?_eq_getElem?]
    · cases found

variable {log : Log}

theorem add (attached : Attached log.entries.toList) (kind : Entry.Kind)
    (message detail : String) : Attached (log.add kind message detail).entries.toList := by
  rw [entries_add]
  split
  · exact attached
  · exact attached.push (Or.inl rfl)

/-- A log that has no room for the upper entry has none for the lower one. -/
theorem isFull_add (full : log.isFull = true) (kind : Entry.Kind) (message : String) :
    (log.add kind message).isFull = true := by
  have entries : (log.add kind message).entries = log.entries := if_pos full
  unfold isFull at full ⊢
  rw [entries]
  exact full

theorem addBelow (attached : Attached log.entries.toList) {kind kind' : Entry.Kind}
    {message message' : String}
    (below : ((log.add kind message).upcoming kind' message' "" (log.add kind message).lastId).Below
      (log.upcoming kind message)) :
    Attached ((log.add kind message).add kind' message' ""
      (log.add kind message).lastId).entries.toList := by
  have upper := attached.add kind message ""
  rw [entries_add]
  split
  · exact upper
  · rename_i room
    apply upper.push
    have kept : ¬ log.isFull = true := fun full => room (isFull_add full kind message)
    refine Or.inr ⟨log.upcoming kind message, ?_, below⟩
    rw [entries_add, if_neg kept]
    exact List.getLast?_concat

theorem addStep (attached : Attached log.entries.toList) (kind : Entry.Kind)
    (message detail : String) : Attached (log.addStep kind message detail).entries.toList := by
  unfold Log.addStep
  split
  · exact attached.add kind message _
  · exact attached

theorem report (attached : Attached log.entries.toList) (message : String)
    (place : Option Location) : Attached (log.report message place).entries.toList := by
  have marked : Attached ({ log with hasError := true } : Log).entries.toList := attached
  unfold Log.report
  cases place with
  | none => exact marked.add .error message ""
  | some loc =>
      dsimp only
      split
      · exact marked.add .error message ""
      · rename_i line _
        exact marked.addBelow (.quote rfl rfl rfl line loc rfl)

theorem write (attached : Attached log.entries.toList) (n : Note) :
    Attached (log.write n).entries.toList := by
  cases n with
  | clear => exact .nil
  | source text => exact attached
  | settings verbosity capacity => exact attached
  | input echo => exact attached.add .input echo ""
  | parsed t => exact attached.add .parsed t.text ""
  | output text => exact attached.add .normal text ""
  | unfolding u => exact attached.addStep .delta _ ""
  | summary t => exact attached.addStep .deltaSummary t.text ""
  | event e =>
      cases e with
      | alpha root binder fresh old => exact attached.addStep .alpha _ _
      | beta root arg fn => exact attached.addStep .beta _ _
      | free old fresh => exact attached.addStep .freeRename _ ""
  | result t equal =>
      unfold Log.write
      dsimp only
      split
      · exact attached.add .result t.text ""
      · exact attached.addBelow (.equivalence rfl rfl rfl)
  | error e => exact attached.report e.message e.location?

theorem writeAll (attached : Attached log.entries.toList) (notes : List Note) :
    Attached (log.writeAll notes).entries.toList := by
  induction notes generalizing log with
  | nil => exact attached
  | cons n notes ih => exact ih (attached.write n)

end Attached

/-- An id belongs to one entry only. -/
theorem Ascending.eq_of_id_eq {log : Log} (ascending : Ascending log) {d e : Entry}
    (hd : d ∈ log.entries.toList) (he : e ∈ log.entries.toList) (same : d.id = e.id) : d = e := by
  have apart : (log.entries.toList.map (·.id)).Nodup := by
    rw [List.Nodup, List.pairwise_map]
    exact ascending.ids.imp Nat.ne_of_lt
  exact List.inj_on_of_nodup_map apart hd he same

end Log

/-! ## Every session -/

namespace Session

/-- What writing keeps, and a cleared log has, holds of the log of every session. -/
theorem Reachable.log_of_writeAll {P : Log → Prop} (start : ∀ options, P (Session.new options).log)
    (kept : ∀ log notes, P log → P (log.writeAll notes)) {s : Session}
    (reachable : Reachable s) : P s.log := by
  have answered : ∀ (s : Session) (r : Request), P s.log → P (s.answer r).2.log := by
    intro s r before
    rw [log_answer]
    exact kept s.log (s.notes r) before
  induction reachable with
  | new options => exact start options
  | @define s _ name source ih => exact answered s (.call (.define name source)) ih
  | @exec s _ source ih => exact answered s (.call (.exec source)) ih
  | @command s _ c ih => exact answered s (.call (.command c)) ih
  | @setOptions s _ options ih => exact answered s (.call (.setOptions options)) ih
  | @evaluate s _ input ih => exact answered s (.call (.evaluate input)) ih

theorem Reachable.ascending {s : Session} (reachable : Reachable s) : s.log.Ascending :=
  reachable.log_of_writeAll ascending_new fun _ notes ascending => ascending.writeAll notes

theorem Reachable.attached {s : Session} (reachable : Reachable s) :
    Log.Attached s.log.entries.toList :=
  reachable.log_of_writeAll (P := fun log => Log.Attached log.entries.toList)
    (fun _ => .nil) fun _ notes attached => attached.writeAll notes

/-- In the log of every session that can come about, whatever its limits have been, an entry with
a parent stands right behind the one entry with that id.  It quotes the source below an error,
or tells what a result is equivalent to. -/
theorem parent_precedes {s : Session} (reachable : Reachable s) {i : Nat} {e : Entry}
    (found : s.log.entries.toList[i]? = some e) (child : e.parent ≠ 0) :
    ∃ j d, i = j + 1 ∧ s.log.entries.toList[j]? = some d ∧ d.id = e.parent ∧
      (∀ d' ∈ s.log.entries.toList, d'.id = e.parent → d' = d) ∧
      (e.kind = .error ∧ d.kind = .error ∧
          (∃ line loc, e.message = Log.caret line loc) ∨
        e.kind = .equivalence ∧ d.kind = .result) := by
  obtain ⟨j, d, next, above, below⟩ := reachable.attached i e found child
  have parent := below.parent_eq
  refine ⟨j, d, next, above, parent.symm, ?_, ?_⟩
  · intro d' member same
    exact reachable.ascending.eq_of_id_eq member (List.mem_of_getElem? above)
      (same.trans parent)
  · cases below with
    | quote _ upper lower line loc message => exact Or.inl ⟨lower, upper, line, loc, message⟩
    | equivalence _ upper lower => exact Or.inr ⟨lower, upper⟩

/-! ### A log with room for three -/

/-- Its log has room for three entries. -/
def limited : Session := (new {}).setOptions { traceCapacity := 3 }

theorem evaluateNotes_unclosed (s : Session) : s.evaluateNotes "(" =
    [.clear, .source "(", .input (echo "("),
      .error (.parse (.atToken ⟨.newline, "<newline>", 1, 2, 0⟩ .noExpression))] := by
  have scanned : Token.scan "(" =
      ⟨[⟨.lparen, "(", 1, 1, 1⟩, ⟨.newline, "<newline>", 1, 2, 0⟩, ⟨.eof, "", 1, 2, 0⟩], []⟩ := by
    decide +kernel
  have read : (s.read "(").1 =
      .error (.atToken ⟨.newline, "<newline>", 1, 2, 0⟩ .noExpression) := by
    rw [read_eq, scanned]
    rfl
  unfold evaluateNotes readNotes scanNotes
  rw [scanned]
  generalize s.read "(" = found at read ⊢
  obtain ⟨result, after⟩ := found
  dsimp only at read
  subst read
  rfl

/-- The echo, the error and the line below it fill the log. -/
theorem parent_precedes_limited : Reachable (limited.evaluate "(").2 ∧ ∃ e,
    (limited.evaluate "(").2.log.entries.toList[2]? = some e ∧ e.parent ≠ 0 ∧
    ∃ j d, 2 = j + 1 ∧ (limited.evaluate "(").2.log.entries.toList[j]? = some d ∧
      d.id = e.parent ∧
      (∀ d' ∈ (limited.evaluate "(").2.log.entries.toList, d'.id = e.parent → d' = d) ∧
      (e.kind = .error ∧ d.kind = .error ∧
          (∃ line loc, e.message = Log.caret line loc) ∨
        e.kind = .equivalence ∧ d.kind = .result) := by
  have reachable : Reachable (limited.evaluate "(").2 :=
    .evaluate (.setOptions (.new {}) { traceCapacity := 3 }) "("
  have log := log_answer limited (.call (.evaluate "("))
  have noted : limited.notes (.call (.evaluate "(")) = limited.evaluateNotes "(" := rfl
  rw [noted, evaluateNotes_unclosed] at log
  have answered : (limited.answer (.call (.evaluate "("))).2 = (limited.evaluate "(").2 := rfl
  have room : limited.log.capacity = 3 := rfl
  obtain ⟨quote, found, child⟩ : ∃ e, (limited.evaluate "(").2.log.entries.toList[2]? = some e ∧
      e.parent ≠ 0 := by
    rw [← answered, log]
    generalize limited.log = before at room ⊢
    obtain ⟨verbosity, capacity⟩ := before
    cases room
    exact ⟨_, rfl, Nat.succ_ne_zero _⟩
  exact ⟨reachable, quote, found, child, parent_precedes reachable found child⟩

end Session

end UntypedLambda
