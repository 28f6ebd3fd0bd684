import UntypedLambda.Proofs.Session.Verbosity

/-! # The settings of the log

Options are handed to the log when they are set, and nothing else touches them there.

Main statement: `Reachable.settings`. -/
set_option autoImplicit false

namespace UntypedLambda.Session

open Log (Note)

/-! ## Who changes options -/

theorem options_command (s : Session) (c : Command) : (s.command c).2.options = s.options := by
  unfold command
  split
  · rfl
  · rfl
  · split
    · rfl
    · split <;> rfl
  · rfl

theorem options_define (s : Session) (name source : String) :
    (s.define name source).2.options = s.options := by
  have keeps := (read_keeps { s with log := s.log.setSource source } source).1
  unfold define
  dsimp only
  generalize Session.read { s with log := s.log.setSource source } source = found at keeps ⊢
  obtain ⟨e | t, after⟩ := found <;> exact keeps

theorem options_execNext (s : Session) (found : Except ParseError (Option Statement)) :
    (s.execNext found).2.options = s.options := by
  rcases found with e | _ | st
  · rfl
  · rfl
  · cases st with
    | term t => exact (Untouched.evaluateTerm ⟨rfl, rfl, rfl⟩ t).options
    | binding name t => rfl
    | command c => exact s.options_command c

theorem options_execAll (s : Session) (p : Parser) : (s.execAll p).2.options = s.options := by
  induction s, p using Session.execAll.induct with
  | case1 s p atLast => rw [execAll_of_done atLast]
  | case2 s p atLast progress reply s' executed _ _ _ ih =>
      have more : p.done = false := Bool.eq_false_iff.mpr atLast
      have after : (s.execNext p.next.1).2 = s' := congrArg Prod.snd executed
      rw [execAll_of_next more]
      dsimp only
      rw [after, ih, ← after, options_execNext]

theorem options_exec (s : Session) (source : String) :
    (s.exec source).2.options = s.options := by
  obtain ⟨log, same⟩ := exec_eq s source
  rw [same, options_execAll]

/-! ## Options and the log -/

/-- The log has the level and the limit that the options ask for. -/
def Follows (s : Session) : Prop :=
  s.log.verbosity = s.options.verbosity ∧ s.log.capacity = s.options.traceCapacity.toNat

/-- A request that leaves the options alone. -/
theorem Follows.answer {s : Session} (follows : Follows s) {r : Request}
    (other : ∀ options, r ≠ .call (.setOptions options))
    (same : (s.answer r).2.options = s.options) : Follows (s.answer r).2 := by
  have notSettings : ∀ verbosity capacity, .settings verbosity capacity ∉ s.notes r := by
    intro verbosity capacity member
    obtain ⟨options, isSet, _⟩ := settings_mem_notes member
    exact other options isSet
  obtain ⟨verbosity, capacity⟩ := s.log.settings_writeAll notSettings
  rw [Follows, log_answer, same, verbosity, capacity]
  exact follows

theorem follows_new (options : Options) : Follows (new options) := by
  have kept := Log.settings_writeAll (empty { options with verbosity := options.verbosity }).log
    (settings_not_mem_loadNotes (empty options) Prelude.items)
  rw [← log_new] at kept
  rw [Follows, options_new]
  exact kept

/-- Whatever has been done, the log has the level and the limit that the options ask for. -/
theorem Reachable.settings {s : Session} (reachable : Reachable s) : Follows s := by
  induction reachable with
  | new options => exact follows_new options
  | @define s _ name source ih =>
      exact ih.answer (r := .call (.define name source)) (by simp) (s.options_define name source)
  | @exec s _ source ih =>
      exact ih.answer (r := .call (.exec source)) (by simp) (s.options_exec source)
  | @command s _ c ih =>
      exact ih.answer (r := .call (.command c)) (by simp) (s.options_command c)
  | setOptions _ options _ => exact ⟨rfl, rfl⟩
  | @evaluate s _ input ih =>
      exact ih.answer (r := .call (.evaluate input)) (by simp) (s.evaluate_keeps input).1

end UntypedLambda.Session
