import UntypedLambda.Proofs.Log.Levels
import UntypedLambda.Proofs.Session.Transcript

/-! # Sessions at two levels

The level of a session decides what its log shows and nothing else.

Main statement: `answers_filters`. -/
set_option autoImplicit false

namespace UntypedLambda.Session

open Log (Note)

/-! ## The start -/

def loadNotes (s : Session) : List Prelude.Item → List Note
  | [] => []
  | item :: items => s.readNotes item.source ++ (s.load item).loadNotes items

section
variable (s : Session) (v : Verbosity) (log : Log)

theorem load_relog (item : Prelude.Item) : (s.relog v log).load item =
    (s.load item).relog v (log.writeAll (s.readNotes item.source)) := by
  unfold load
  rw [read_relog]
  obtain ⟨result, after⟩ := s.read item.source
  cases result <;> rfl

theorem loadAll_relog (items : List Prelude.Item) : items.foldl load (s.relog v log) =
    (items.foldl load s).relog v (log.writeAll (s.loadNotes items)) := by
  induction items generalizing s log with
  | nil => rfl
  | cons item items ih =>
      rw [List.foldl_cons, List.foldl_cons, load_relog, ih, loadNotes, Log.writeAll_append]

theorem classifyAll_relog (names : List String) :
    names.foldl (fun s name => s.classify name (s.bindings.getD name .hole)) (s.relog v log) =
      (names.foldl (fun s name => s.classify name (s.bindings.getD name .hole)) s).relog v log := by
  induction names generalizing s with
  | nil => rfl
  | cons name names ih => exact ih (s.classify name (s.bindings.getD name .hole))

end

/-- What is done to start a session. -/
def prepare (s : Session) : Session :=
  let s := (Prelude.items.flatMap (·.names)).foldl
    (fun s name => s.classify name (s.bindings.getD name .hole)) (Prelude.items.foldl load s)
  { s with log := s.log.clear }

theorem new_eq (o : Options) : new o = prepare (empty o) := rfl

theorem prepare_relog (s : Session) (v : Verbosity) (log : Log) : prepare (s.relog v log) =
    (prepare s).relog v (log.writeAll (s.loadNotes Prelude.items ++ [.clear])) := by
  unfold prepare
  rw [loadAll_relog, classifyAll_relog, Log.writeAll_append]
  exact relog_clear _ v _

theorem new_relog (o : Options) (v : Verbosity) : new { o with verbosity := v } =
    (new o).relog v ((empty { o with verbosity := v }).log.writeAll
      ((empty o).loadNotes Prelude.items ++ [.clear])) := by
  have start : empty { o with verbosity := v } =
      (empty o).relog v (empty { o with verbosity := v }).log := rfl
  rw [new_eq, new_eq, ← prepare_relog, ← start]

/-! ## The result -/

theorem levelOf_of_steady {requests : List Request}
    (steady : ∀ options, .call (.setOptions options) ∉ requests) (v : Verbosity) :
    Request.levelOf v requests = v := by
  induction requests generalizing v with
  | nil => rfl
  | cons r requests ih =>
      have rest := ih fun options member => steady options (List.mem_cons_of_mem _ member)
      have first : r.level v = v := by
        cases r with
        | call c =>
            cases c with
            | setOptions options => exact absurd List.mem_cons_self (steady options)
            | _ => rfl
        | _ => rfl
      rw [Request.levelOf, List.foldl_cons, first]
      exact rest v

theorem settings_not_mem_notesOf {requests : List Request}
    (steady : ∀ options, .call (.setOptions options) ∉ requests) (s : Session)
    (verbosity : Verbosity) (capacity : Int) :
    .settings verbosity capacity ∉ s.notesOf requests := by
  induction requests generalizing s with
  | nil => exact List.not_mem_nil
  | cons r requests ih =>
      rw [notesOf, List.mem_append, not_or]
      refine ⟨fun member => ?_, ih (fun options member => steady options
        (List.mem_cons_of_mem _ member)) _⟩
      obtain ⟨options, same, _⟩ := settings_mem_notes member
      exact steady options (same ▸ List.mem_cons_self)

theorem log_new (o : Options) (v : Verbosity) : (new { o with verbosity := v }).log =
    (empty { o with verbosity := v }).log.writeAll
      ((empty o).loadNotes Prelude.items ++ [.clear]) :=
  congrArg (·.log) (new_relog o v)

theorem settings_not_mem_loadNotes (s : Session) (items : List Prelude.Item)
    (verbosity : Verbosity) (capacity : Int) :
    .settings verbosity capacity ∉ s.loadNotes items ++ [.clear] := by
  induction items generalizing s with
  | nil => simp [loadNotes]
  | cons item items ih =>
      rw [loadNotes, List.append_assoc, List.mem_append, not_or]
      exact ⟨s.settings_not_mem_readNotes verbosity capacity item.source, ih (s.load item)⟩

theorem verbosity_new (o : Options) : (new o).log.verbosity = o.verbosity := by
  rw [log_new o o.verbosity, Log.verbosity_writeAll _ (settings_not_mem_loadNotes _ _)]
  rfl

theorem ascending_new (o : Options) : Log.Ascending (new o).log := by
  have start : Log.Ascending (empty o).log :=
    ⟨List.Pairwise.nil, by simp [empty, Log.new, Log.setCapacity]⟩
  rw [log_new o o.verbosity]
  exact start.writeAll _

theorem filters_new {o : Options} (unlimited : o.traceCapacity ≤ 0) {v w : Verbosity}
    (le : v.level ≤ w.level) :
    Log.Filters (new { o with verbosity := v }).log (new { o with verbosity := w }).log := by
  have start : Log.Filters (empty { o with verbosity := v }).log
      (empty { o with verbosity := w }).log :=
    { level := le
      unlimited := ⟨Int.toNat_of_nonpos unlimited, Int.toNat_of_nonpos unlimited⟩
      source := rfl
      entries := Log.Corresponds.nil }
  rw [log_new, log_new]
  exact start.writeAll (settings_not_mem_loadNotes _ _)

theorem answers_new (o : Options) (v : Verbosity) {requests : List Request}
    (steady : ∀ options, .call (.setOptions options) ∉ requests) :
    (new { o with verbosity := v }).answers requests =
      (((new o).answers requests).1, ((new o).answers requests).2.relog v
        ((new { o with verbosity := v }).log.writeAll ((new o).notesOf requests))) := by
  have answered := answers_relog (new o) v (new { o with verbosity := v }).log requests
  rw [levelOf_of_steady steady, log_new] at answered
  rw [new_relog]
  exact answered

/-- After any requests, two sessions that differ only in how much they show have told the same
and differ only in how much their logs show.  The log at the lower level has the entries of the
other one, without the steps that it does not show and the details that it does not explain, and
an entry stands below another one in both logs or in neither. -/
theorem answers_filters {o : Options} (unlimited : o.traceCapacity ≤ 0) {v w : Verbosity}
    (le : v.level ≤ w.level) {requests : List Request}
    (steady : ∀ options, .call (.setOptions options) ∉ requests) :
    let a := (new { o with verbosity := v }).answers requests
    let b := (new { o with verbosity := w }).answers requests
    a.1 = b.1 ∧ a.2.bindings = b.2.bindings ∧ a.2.equivalences = b.2.equivalences ∧
    a.2.stats = b.2.stats ∧ a.2.nextId = b.2.nextId ∧
    (v.level < Verbosity.low.level →
      a.2.log.entries.toList.map (fun e => (e.kind, e.message)) =
        (b.2.log.entries.toList.map fun e => (e.kind, e.message)).filter (!·.1.isStep)) ∧
    (v = .low → a.2.log.contents = b.2.log.contents.map fun c => { c with detail := "" }) ∧
    Log.Corresponds a.2.log.entries.toList (v.view b.2.log.entries.toList) ∧
    Log.Ascending a.2.log ∧ Log.Ascending b.2.log := by
  have notSettings := settings_not_mem_notesOf steady (new o)
  have level : ((new { o with verbosity := v }).log.writeAll
      ((new o).notesOf requests)).verbosity = v := by
    rw [Log.verbosity_writeAll _ notSettings, verbosity_new]
  have corresponds := ((filters_new unlimited le).writeAll notSettings).entries
  rw [level] at corresponds
  have first := (ascending_new { o with verbosity := v }).writeAll ((new o).notesOf requests)
  have second := (ascending_new { o with verbosity := w }).writeAll ((new o).notesOf requests)
  rw [answers_new o v steady, answers_new o w steady]
  simp only [relog_log, relog_nextId, relog_bindings, relog_equivalences, relog_stats, true_and]
  refine ⟨fun below => ?_, ?_, corresponds, first, second⟩
  · have same := congrArg (List.map fun c : Entry.Content => (c.kind, c.message))
      corresponds.contents
    rw [List.map_map, List.map_map] at same
    exact same.trans (Verbosity.view_of_lt_low below _)
  · rintro rfl
    exact corresponds.contents.trans (Verbosity.view_low _)

/-- A name that is defined in terms of a later one, evaluated before and after. -/
def lateRequests : List Request :=
  [.call (.define "b" "a"), .call (.evaluate "b"), .call (.define "a" "\\x. x"),
    .call (.exec "b"), .names]

theorem answers_filters_late :
    ({} : Options).traceCapacity ≤ 0 ∧ Verbosity.none.level ≤ Verbosity.high.level ∧
      (∀ options, .call (.setOptions options) ∉ lateRequests) ∧
      ((new { verbosity := .none }).answers lateRequests).1 =
        ((new { verbosity := .high }).answers lateRequests).1 ∧
      Log.Corresponds ((new { verbosity := .none }).answers lateRequests).2.log.entries.toList
        (Verbosity.none.view
          ((new { verbosity := .high }).answers lateRequests).2.log.entries.toList) := by
  have unlimited : ({} : Options).traceCapacity ≤ 0 := by decide
  have le : Verbosity.none.level ≤ Verbosity.high.level := by decide
  have steady : ∀ options, .call (.setOptions options) ∉ lateRequests := by simp [lateRequests]
  obtain ⟨told, _, _, _, _, _, _, corresponds, _⟩ := answers_filters unlimited le steady
  exact ⟨unlimited, le, steady, told, corresponds⟩

end UntypedLambda.Session
