import UntypedLambda.Proofs.Session.Transcript
import UntypedLambda.Proofs.Token.Segments

/-! # What a session says of characters that start no token

A session reports the errors of a scan to its log before it does anything with the tokens, and in
the order in which they stand.  So its log tells of every character that is part of nothing else.

Main statement: `scan_accounts`. -/
set_option autoImplicit false

namespace UntypedLambda.Session

open Token (scan)

/-- The log after the errors of a scan were reported, in the order in which they stand. -/
def reported (source : String) (log : Log) : Log :=
  (scan source).errors.foldl (fun log e => log.reportError (.lex e)) log

/-- Every character of a source is part of one token, one error, a blank or a comment, tokens
carry the places of their characters, and the errors are reported before anything else. -/
theorem scan_accounts (source : String) :
    (∃ segments added, Token.Accounts source (scan source) segments added) ∧
    ∀ s : Session,
      (s.read source).2.log =
        (match (s.read source).1 with
          | .ok _ => reported source s.log
          | .error e => (reported source s.log).reportError (.parse e)) ∧
      (s.exec source).2.log = (reported source (s.log.clear.setSource source)).writeAll
        (s.allNotes ⟨(scan source).tokens, s.nextId⟩) := by
  refine ⟨Token.exists_accounts source, fun s => ⟨?_, ?_⟩⟩
  · unfold Session.read
    dsimp only
    split <;> rfl
  · have noted : ∀ log : Log, log.writeAll (scanNotes source) = reported source log :=
      fun _ => List.foldl_map
    have relogged := exec_relog s s.options.verbosity s.log source
    rw [relog_self, execNotes, Log.writeAll_append, Log.writeAll_append, noted] at relogged
    exact congrArg (fun done => done.2.log) relogged

end UntypedLambda.Session
