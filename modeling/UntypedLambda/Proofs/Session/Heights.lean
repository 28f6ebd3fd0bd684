import UntypedLambda.Proofs.Expansion.Unfolding
import UntypedLambda.Proofs.Reduction.Results
import UntypedLambda.Proofs.Session.Changes
import UntypedLambda.Proofs.Session.Faithful
import UntypedLambda.Proofs.Term.Fold

/-! # How high answers are

A bound on the depth to which expansion and reduction nest is also one on the height of what they
end with, however high the terms were that came up in between.  So an answer that was found within
the depth of folds is folded to the end, and its fingerprints are not the zero that stands for a
fold that failed.

Main statement: `results_within_bound`. -/
set_option autoImplicit false

namespace UntypedLambda.Session

/-- Within the bound of the session there is nothing left to do in an answer. -/
theorem finished_of_evaluate {s : Session} {input : String} {u : Term}
    (success : (s.evaluate input).1 = .ok u) :
    Reduction.Finished s.options.renameFree (s.options.bound + 1) u := by
  obtain ⟨t, e, _, _, reduced⟩ := evaluate_eq_ok.mp success
  exact Reduction.finished_of_visit reduced

/-- What a reduction or an expansion ends with is at most as high as its bound.  So if the bound of
a session is at most the depth that folds go to, every fold of an answer has a value, and this is
where both fingerprints of the answer come from. -/
theorem results_within_bound :
    (∀ (o : Reduction.Options) (c : Reduction.Counters) (t u : Term),
      (Reduction.run o c t).result = .ok u → u.height ≤ o.bound) ∧
    (∀ (definitions : String → Option Term) (bound : Nat) (t u : Term),
      (Expansion.run definitions bound t).result = .ok u → u.height ≤ bound) ∧
    ∀ (s : Session) (input : String) (u : Term), (s.evaluate input).1 = .ok u →
      s.options.bound ≤ Term.Fold.maxDepth →
      (∀ {σ α : Type} (alg : Term.Fold.Algebra σ α) (start : σ),
        ∃ value last, u.fold alg start = (.ok value, last)) ∧
      (∃ last, u.fold Fingerprint.structureAlgebra ⟨.ofSeed "l4mbda", []⟩ =
        (.ok u.structureFingerprint, last)) ∧
      ∃ last, u.fold Fingerprint.valueAlgebra (.ofSeed "c4lcvlv5") =
        (.ok u.valueFingerprint, last) := by
  refine ⟨?_, ?_, ?_⟩
  · intro o c t u success
    exact Nat.le_of_lt_succ (Reduction.finished_of_visit success).height_lt
  · intro definitions bound t u success
    exact Nat.le_of_lt_succ (Expansion.height_lt_of_visit success)
  · intro s input u success small
    have finished := finished_of_evaluate success
    have fits : u.height ≤ Term.Fold.maxDepth :=
      Nat.le_trans (Nat.le_of_lt_succ finished.height_lt) small
    have folds : ∀ {σ α : Type} (alg : Term.Fold.Algebra σ α) (start : σ),
        ∃ value last, u.fold alg start = (.ok value, last) :=
      fun alg start => Term.Fold.exists_fold_eq_ok alg finished.holeFree fits start
    refine ⟨folds, ?_, ?_⟩
    · obtain ⟨value, last, folded⟩ :=
        folds Fingerprint.structureAlgebra ⟨.ofSeed "l4mbda", []⟩
      refine ⟨last, ?_⟩
      rw [Term.structureFingerprint, folded]
      rfl
    · obtain ⟨value, last, folded⟩ := folds Fingerprint.valueAlgebra (.ofSeed "c4lcvlv5")
      refine ⟨last, ?_⟩
      rw [Term.valueFingerprint, folded]
      rfl

/-- A session whose bound is just enough for `λx. x`. -/
def shallow : Session := new { maxDepth := 1 }

theorem evaluate_shallow : (shallow.evaluate "\\x. x").1 =
    .ok (.abs "x" shallow.nextId (.var "x" shallow.nextId false)) := by
  have options : shallow.options = { maxDepth := 1 } := options_new _
  have missing : shallow.lookup "x" = none := lookup_new _ (by decide)
  have bound : shallow.options.bound = 1 := congrArg Options.bound options
  have expanded : Expansion.run shallow.lookup shallow.options.bound
      (.abs "x" shallow.nextId (.var "x" shallow.nextId false)) =
        .done (.abs "x" shallow.nextId (.var "x" shallow.nextId false)) := by
    rw [bound]
    exact Expansion.visit_eq_done trivial (fun _ => missing) (by decide)
  refine evaluate_eq_ok.mpr ⟨_, _, read_identity shallow, congrArg Expansion.Run.result expanded, ?_⟩
  rw [options]
  rfl

/-- `(λx. λy. x y) z` -/
def redex : Term :=
  .app (.abs "x" 1 (.abs "y" 2 (.app (.var "x" 1 false) (.var "y" 2 false)))) (.var "z" 0 false)

/-- `a` is `λx. b x`, and `b` is `y y`. -/
def nested (name : String) : Option Term :=
  if name = "a" then some (.abs "x" 1 (.app (.var "b" 0 false) (.var "x" 1 false)))
  else if name = "b" then some (.app (.var "y" 0 false) (.var "y" 0 false)) else none

theorem results_within_bound_shallow :
    (∃ u, (Reduction.run ⟨false, 4⟩ {} redex).result = .ok u ∧ u.height ≤ 4) ∧
      (∃ u, (Expansion.run nested 5 (.var "a" 0 false)).result = .ok u ∧ u.height ≤ 5) ∧
      ∃ u, (shallow.evaluate "\\x. x").1 = .ok u ∧
        ∃ last, u.fold Fingerprint.structureAlgebra ⟨.ofSeed "l4mbda", []⟩ =
          (.ok u.structureFingerprint, last) := by
  obtain ⟨reduced, expanded, folds⟩ := results_within_bound
  refine ⟨⟨_, rfl, reduced ⟨false, 4⟩ {} redex _ rfl⟩,
    ⟨_, rfl, expanded nested 5 (.var "a" 0 false) _ rfl⟩, _, evaluate_shallow, ?_⟩
  have bound : shallow.options.bound ≤ Term.Fold.maxDepth := by
    rw [shallow, options_new]
    decide
  exact (folds shallow _ _ evaluate_shallow bound).2.1

end UntypedLambda.Session
