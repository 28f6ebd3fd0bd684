import UntypedLambda.Proofs.Parser.Resolution
import UntypedLambda.Session

/-! # Sessions that can come about

A session starts with the prelude and goes on by any operations in any order.  All that it
binds was read by its parser, so one ledger has the numbers of all its definitions.

Main statement: `Reachable.sound`. -/
set_option autoImplicit false

namespace UntypedLambda.Session

/-- The sessions that can come about, failing operations included. -/
inductive Reachable : Session → Prop where
  | new (options : Options) : Reachable (.new options)
  | define {s : Session} (before : Reachable s) (name source : String) :
      Reachable (s.define name source).2
  | exec {s : Session} (before : Reachable s) (source : String) : Reachable (s.exec source).2
  | command {s : Session} (before : Reachable s) (c : Command) : Reachable (s.command c).2
  | setOptions {s : Session} (before : Reachable s) (options : Options) :
      Reachable (s.setOptions options)
  | evaluate {s : Session} (before : Reachable s) (input : String) :
      Reachable (s.evaluate input).2

def Defines (ledger : Ledger) (s : Session) : Prop :=
  ∀ name t, s.lookup name = some t → t.Resolved ledger []

structure Sound (ledger : Ledger) (s : Session) : Prop where
  next : s.nextId = ledger.next
  defines : Defines ledger s

theorem Defines.extend {old new : Ledger} {s : Session} (defines : Defines old s)
    (grown : old.Extends new) : Defines new s :=
  fun name t found => (defines name t found).extend grown

/-! ## What only counts and records -/

/-- Log, equivalences and counts apart, nothing has changed. -/
structure Untouched (s s' : Session) : Prop where
  options : s'.options = s.options
  nextId : s'.nextId = s.nextId
  bindings : s'.bindings = s.bindings

namespace Untouched

theorem defines {ledger : Ledger} {s s' : Session} (untouched : Untouched s s')
    (defines : Defines ledger s) : Defines ledger s' := by
  intro name t found
  rw [lookup, untouched.bindings] at found
  exact defines name t found

theorem sound {ledger : Ledger} {s s' : Session} (untouched : Untouched s s')
    (sound : Sound ledger s) : Sound ledger s' where
  next := by rw [untouched.nextId, sound.next]
  defines := untouched.defines sound.defines

variable {a s : Session} (before : Untouched a s)
include before

theorem fail (e : Error) : Untouched a (s.fail e).2 := by
  obtain ⟨options, nextId, bindings⟩ := before
  unfold Session.fail
  dsimp only
  split <;> exact ⟨options, nextId, bindings⟩

theorem conclude (t : Term) : Untouched a (s.conclude t) := by
  obtain ⟨options, nextId, bindings⟩ := before
  unfold Session.conclude
  dsimp only
  split <;> exact ⟨options, nextId, bindings⟩

theorem reduce (t : Term) : Untouched a (s.reduce t).2 := by
  obtain ⟨options, nextId, bindings⟩ := before
  unfold Session.reduce
  dsimp only
  split
  · apply Untouched.conclude
    exact ⟨options, nextId, bindings⟩
  · apply Untouched.fail
    exact ⟨options, nextId, bindings⟩

theorem evaluateTerm (t : Term) : Untouched a (s.evaluateTerm t).session := by
  obtain ⟨options, nextId, bindings⟩ := before
  unfold Session.evaluateTerm
  dsimp only
  split
  · apply Untouched.reduce
    exact ⟨options, nextId, bindings⟩
  · apply Untouched.fail
    exact ⟨options, nextId, bindings⟩

/-- Classifying a name only changes the equivalences. -/
theorem classifyAll (names : List String) (term : Session → String → Term) :
    Untouched a (names.foldl (fun s name => s.classify name (term s name)) s) := by
  induction names generalizing s with
  | nil => exact before
  | cons name names ih => exact ih ⟨before.options, before.nextId, before.bindings⟩

end Untouched

/-! ## What changes definitions -/

theorem Defines.insert {ledger : Ledger} {s s' : Session} {name : String} {t : Term}
    (defines : Defines ledger s) (resolved : t.Resolved ledger [])
    (same : s'.bindings = s.bindings.insert name t) : Defines ledger s' := by
  intro name' u found
  rw [lookup, same, Std.TreeMap.getElem?_insert] at found
  split at found
  · cases found
    exact resolved
  · exact defines name' u found

theorem Defines.erase {ledger : Ledger} {s s' : Session} {name : String}
    (defines : Defines ledger s) (same : s'.bindings = s.bindings.erase name) :
    Defines ledger s' := by
  intro name' u found
  rw [lookup, same, Std.TreeMap.getElem?_erase] at found
  split at found
  · cases found
  · exact defines name' u found

theorem Defines.command {ledger : Ledger} {s : Session} (defines : Defines ledger s)
    (c : Command) : Defines ledger (s.command c).2 := by
  unfold Session.command
  split
  · exact defines
  · exact defines
  · split
    · exact defines
    · split
      · exact defines.erase rfl
      · exact defines
  · exact defines

theorem nextId_command (s : Session) (c : Command) : (s.command c).2.nextId = s.nextId := by
  unfold command
  split
  · rfl
  · rfl
  · split
    · rfl
    · split <;> rfl
  · rfl

/-! ## Reading -/

theorem read_eq (s : Session) (source : String) :
    (s.read source).1 = (Parser.mk (Token.scan source).tokens s.nextId).parseTerm.1 := by
  unfold read
  dsimp only
  split
  · rename_i t parsed
    exact parsed.symm
  · rename_i e parsed
    exact parsed.symm

theorem nextId_read (s : Session) (source : String) : (s.read source).2.nextId =
    (Parser.mk (Token.scan source).tokens s.nextId).parseTerm.2.nextId := by
  unfold read
  dsimp only
  split <;> rfl

theorem read_keeps (s : Session) (source : String) :
    (s.read source).2.options = s.options ∧ (s.read source).2.bindings = s.bindings := by
  unfold read
  dsimp only
  split <;> exact ⟨rfl, rfl⟩

/-- Definitions stay as they are while a text is read, and what is read joins their ledger. -/
theorem Sound.read {ledger : Ledger} {s : Session} (sound : Sound ledger s) (source : String) :
    ∃ ledger', ledger.Extends ledger' ∧ Sound ledger' (s.read source).2 ∧
      ∀ t, (s.read source).1 = .ok t → t.Resolved ledger' [] := by
  obtain ⟨ledger', grown, next, resolved⟩ := @Parser.parseTerm_resolves ledger
    ⟨(Token.scan source).tokens, s.nextId⟩ sound.next (Parser.words_scan source)
  rw [← nextId_read] at next
  rw [← read_eq] at resolved
  refine ⟨ledger', grown, ⟨next, ?_⟩, resolved⟩
  intro name t found
  rw [lookup, (read_keeps s source).2] at found
  exact sound.defines.extend grown name t found

/-! ## The start -/

theorem Defines.insertAll {ledger : Ledger} {s : Session} {names : List String} {t : Term}
    (defines : Defines ledger s) (resolved : t.Resolved ledger []) :
    Defines ledger { s with bindings := names.foldl (fun b name => b.insert name t) s.bindings } := by
  induction names generalizing s with
  | nil => exact defines
  | cons name names ih =>
      have first : Defines ledger { s with bindings := s.bindings.insert name t } :=
        defines.insert resolved rfl
      exact ih first

theorem Sound.load {ledger : Ledger} {s : Session} (sound : Sound ledger s)
    (item : Prelude.Item) : ∃ ledger', Sound ledger' (s.load item) := by
  obtain ⟨ledger', _, after, resolved⟩ := sound.read item.source
  refine ⟨ledger', ?_⟩
  unfold Session.load
  split
  · rename_i e s' read
    rw [read] at after
    exact after
  · rename_i t s' read
    rw [read] at after resolved
    exact ⟨after.next, after.defines.insertAll (resolved t rfl)⟩

theorem sound_loadAll {s : Session} {items : List Prelude.Item} (start : ∃ ledger, Sound ledger s) :
    ∃ ledger, Sound ledger (items.foldl Session.load s) := by
  induction items generalizing s with
  | nil => exact start
  | cons item items ih =>
      obtain ⟨ledger, sound⟩ := start
      exact ih (sound.load item)

/-- The session that the prelude is loaded into. -/
def empty (options : Options) : Session where
  options := options
  log := (Log.new options.verbosity).setCapacity options.traceCapacity
  nextId := 1
  bindings := ∅
  equivalences := .empty
  stats := {}

theorem untouched_started (options : Options) (items : List Prelude.Item) :
    Untouched (items.foldl load (empty options))
      (let s := (items.flatMap (·.names)).foldl
        (fun s name => s.classify name (s.bindings.getD name .hole))
        (items.foldl load (empty options))
       { s with log := s.log.clear }) := by
  have classified : Untouched (items.foldl load (empty options)) _ :=
    Untouched.classifyAll ⟨rfl, rfl, rfl⟩ (items.flatMap (·.names))
      fun s name => s.bindings.getD name .hole
  exact ⟨classified.options, classified.nextId, classified.bindings⟩

theorem untouched_new (options : Options) :
    Untouched (Prelude.items.foldl load (empty options)) (new options) :=
  untouched_started options Prelude.items

theorem lookup_empty (options : Options) (name : String) : (empty options).lookup name = none := by
  simp [lookup, empty]

theorem sound_new (options : Options) : ∃ ledger, Sound ledger (new options) := by
  have nothing : Sound ⟨fun _ => "", 1, by decide⟩ (empty options) := by
    refine ⟨rfl, ?_⟩
    intro name t found
    rw [lookup_empty] at found
    cases found
  obtain ⟨ledger, loaded⟩ := @sound_loadAll (empty options) Prelude.items ⟨_, nothing⟩
  exact ⟨ledger, (untouched_new options).sound loaded⟩

theorem getElem?_insertAll (names : List String) (t : Term) (b : Std.TreeMap String Term)
    (name : String) : (names.foldl (fun b name => b.insert name t) b)[name]? =
      if name ∈ names then some t else b[name]? := by
  induction names generalizing b with
  | nil => rfl
  | cons first names ih =>
      rw [List.foldl_cons, ih, Std.TreeMap.getElem?_insert]
      simp only [Std.LawfulEqCmp.compare_eq_iff_eq]
      by_cases later : name ∈ names
      · rw [if_pos later, if_pos (List.mem_cons_of_mem _ later)]
      · rw [if_neg later]
        by_cases same : first = name
        · rw [if_pos same, if_pos (same ▸ List.mem_cons_self)]
        · rw [if_neg same, if_neg]
          exact fun member => (List.mem_cons.mp member).elim (fun eq => same eq.symm) later

/-- Loading an item leaves the options alone and binds the names of the item only. -/
theorem load_keeps (s : Session) (item : Prelude.Item) : (s.load item).options = s.options ∧
    ∀ name ∉ item.names, (s.load item).lookup name = s.lookup name := by
  obtain ⟨options, bindings⟩ := read_keeps s item.source
  unfold load
  split <;> rename_i read <;> rw [read] at options bindings
  · refine ⟨options, fun name _ => ?_⟩
    rw [lookup, bindings, lookup]
  · refine ⟨options, fun name other => ?_⟩
    rw [lookup, getElem?_insertAll, if_neg other, bindings, lookup]

theorem loadAll_keeps (s : Session) (items : List Prelude.Item) :
    (items.foldl load s).options = s.options ∧
      ∀ name ∉ items.flatMap (·.names), (items.foldl load s).lookup name = s.lookup name := by
  induction items generalizing s with
  | nil => exact ⟨rfl, fun _ _ => rfl⟩
  | cons item items ih =>
      obtain ⟨options, lookup⟩ := ih (s.load item)
      obtain ⟨options', lookup'⟩ := load_keeps s item
      refine ⟨options.trans options', fun name other => ?_⟩
      simp only [List.flatMap_cons, List.mem_append, not_or] at other
      exact (lookup name other.2).trans (lookup' name other.1)

theorem options_new (options : Options) : (new options).options = options :=
  (untouched_new options).options.trans (loadAll_keeps (empty options) Prelude.items).1

theorem lookup_new (options : Options) {name : String}
    (other : name ∉ Prelude.items.flatMap (·.names)) : (new options).lookup name = none := by
  have loaded := (loadAll_keeps (empty options) Prelude.items).2 name other
  rw [lookup_empty, lookup] at loaded
  rw [lookup, (untouched_new options).bindings, loaded]

/-! ## Operations -/

theorem Sound.define {ledger : Ledger} {s : Session} (sound : Sound ledger s)
    (name source : String) : ∃ ledger', Sound ledger' (s.define name source).2 := by
  have started : Sound ledger { s with log := s.log.setSource source } :=
    ⟨sound.next, sound.defines⟩
  obtain ⟨ledger', _, after, resolved⟩ := started.read source
  refine ⟨ledger', ?_⟩
  unfold Session.define
  dsimp only
  split
  · rename_i e s' read
    rw [read] at after
    exact after
  · rename_i t s' read
    rw [read] at after resolved
    exact ⟨after.next, after.defines.insert (resolved t rfl) rfl⟩

theorem Sound.evaluate {ledger : Ledger} {s : Session} (sound : Sound ledger s)
    (input : String) : ∃ ledger', Sound ledger' (s.evaluate input).2 := by
  unfold Session.evaluate
  dsimp only
  generalize (s.log.clear.setSource input).add .input _ = log
  have started : Sound ledger { s with log := log } := ⟨sound.next, sound.defines⟩
  obtain ⟨ledger', _, after, _⟩ := started.read input
  refine ⟨ledger', ?_⟩
  split
  · rename_i e s' read
    rw [read] at after
    exact ⟨after.next, after.defines⟩
  · rename_i t s' read
    rw [read] at after
    exact (Untouched.evaluateTerm ⟨rfl, rfl, rfl⟩ t).sound after

theorem Defines.execStatement {ledger : Ledger} {s : Session} (defines : Defines ledger s)
    {st : Statement} (resolved : st.Resolved ledger) :
    Defines ledger (s.execStatement st).2 := by
  cases st with
  | term t => exact (Untouched.evaluateTerm ⟨rfl, rfl, rfl⟩ t).defines defines
  | binding name t =>
      have bound : Defines ledger (s.bind name t) := defines.insert resolved rfl
      exact bound
  | command c => exact defines.command c

theorem Defines.execNext {ledger : Ledger} {s : Session} (defines : Defines ledger s)
    {found : Except ParseError (Option Statement)}
    (resolved : ∀ st, found = .ok (some st) → st.Resolved ledger) :
    Defines ledger (s.execNext found).2 := by
  unfold Session.execNext
  split
  · exact defines
  · exact defines
  · rename_i st
    exact defines.execStatement (resolved st rfl)

/-- While statements are executed the next number is with the parser. -/
theorem Defines.execAll {ledger : Ledger} {s : Session} {p : Parser}
    (defines : Defines ledger s) (number : p.nextId = ledger.next)
    (words : Parser.Words p.tokens) : ∃ ledger', Sound ledger' (s.execAll p).2 := by
  induction s, p using Session.execAll.induct generalizing ledger with
  | case1 s p atLast =>
      rw [Session.execAll, dif_pos atLast]
      exact ⟨ledger, number, defines⟩
  | case2 s p atLast progress reply s' executed _ _ _ ih =>
      -- the number that `s` holds is out of date until the last statement has been executed
      obtain ⟨ledger', grown, later, resolved⟩ := p.next_resolves number words
      have after := (defines.extend grown).execNext resolved
      rw [executed] at after
      rw [Session.execAll, dif_neg atLast]
      dsimp only
      rw [executed]
      exact ih after later (words.suffix p.next_suffix)

theorem Sound.exec {ledger : Ledger} {s : Session} (sound : Sound ledger s) (source : String) :
    ∃ ledger', Sound ledger' (s.exec source).2 :=
  Defines.execAll sound.defines sound.next (Parser.words_scan source)

theorem Reachable.sound {s : Session} (reachable : Reachable s) :
    ∃ ledger, Sound ledger s := by
  induction reachable with
  | new options => exact sound_new options
  | define _ name source ih =>
      obtain ⟨ledger, sound⟩ := ih
      exact sound.define name source
  | exec _ source ih =>
      obtain ⟨ledger, sound⟩ := ih
      exact sound.exec source
  | @command s _ c ih =>
      obtain ⟨ledger, sound⟩ := ih
      exact ⟨ledger, by rw [nextId_command, sound.next], sound.defines.command c⟩
  | setOptions _ options ih =>
      obtain ⟨ledger, sound⟩ := ih
      exact ⟨ledger, sound.next, sound.defines⟩
  | evaluate _ input ih =>
      obtain ⟨ledger, sound⟩ := ih
      exact sound.evaluate input

end UntypedLambda.Session
