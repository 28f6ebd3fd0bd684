import UntypedLambda.Proofs.Session.Meanings

/-! # Arithmetic in a new session

The text of a numeral is a closed term that reads as that numeral, so sums, products, successors
and tests for zero are what the definitions of the prelude mean for numerals.

Main statement: `evaluate_arithmetic`. -/
set_option autoImplicit false

namespace UntypedLambda

open Term Nameless

/-! ## The text of a numeral -/

namespace Numeral

/-- The argument `x`, with `f` applied to it `n` times. -/
def applications : Nat → String
  | 0 => "x"
  | 1 => "f x"
  | n + 2 => "f (" ++ applications (n + 1) ++ ")"

/-- The abstraction of both, such as `λf x. f (f x)`. -/
def source (sign : Sign) (n : Nat) : String := sign.text ++ "f x. " ++ applications n

def body : Nat → Named
  | 0 => .var "x"
  | n + 1 => .app (.var "f") (body n)

def tree (n : Nat) : Named := .abstract ["f", "x"] (body n)

theorem shows_applications (n : Nat) : Shows .term (body n) (applications n).toList := by
  have f : Shows .atom (.var "f") "f".toList := .identifier (by decide)
  have x : Shows .atom (.var "x") "x".toList := .identifier (by decide)
  induction n with
  | zero => exact x.term
  | succ n ih =>
      cases n with
      | zero => exact (f.single.apply x).plain
      | succ n =>
          have inner := (f.single.apply ih.group).plain
          simpa [applications, body] using inner

theorem shows_source (sign : Sign) (n : Nat) : Shows .term (tree n) (source sign n).toList := by
  have names : ∀ name ∈ ["f", "x"], IsIdentifier name := by decide
  have whole := Shows.abstraction sign (List.cons_ne_nil "f" ["x"]) names (shows_applications n)
  simpa [source, spaced, tree] using whole

theorem reading_tree (n : Nat) : (tree n).reading [] = numeral n := by
  have inner : (body n).reading ["x", "f"] = power (bound 1) (bound 0) n := by
    induction n with
    | zero => rfl
    | succ n ih => exact congrArg (Nameless.app (bound 1)) ih
  exact congrArg (fun t => Nameless.abs (.abs t)) inner

theorem idReading_tree (n : Nat) {next : Int} (positive : 0 < next) :
    ((tree n).resolve [] next).idReading [] = numeral n :=
  ((tree n).idReading_resolve_nil positive).trans (reading_tree n)

theorem freeNames_numeral (n : Nat) : (numeral n).freeNames = [] := by
  have body : (power (bound 1) (bound 0) n).freeNames = [] := by
    induction n with
    | zero => rfl
    | succ n ih => exact ih
  exact body

theorem means_tree (n : Nat) {next : Int} (positive : 0 < next) :
    Means ((tree n).resolve [] next) (numeral n) := by
  rw [← idReading_tree n positive]
  refine .of_undefined ((tree n).holeFree_resolve [] next) ?_
  rw [(tree n).freeNames_resolve positive, reading_tree, freeNames_numeral]
  simp

end Numeral

namespace Session

open Numeral

/-! ## Operations -/

theorem exists_depth_unary (sign : Sign) (b : Builtin) (n : Nat) {v : Nameless}
    (evaluates : Evaluates (app b.meaning (numeral n)) v) : ∃ depth : Nat, ∀ o : Options,
      (depth : Int) ≤ o.maxDepth → o.renameFree = false →
      (new o).Returns (b.name ++ " (" ++ source sign n ++ ")") v := by
  have shows := ((Shows.identifier b.isIdentifier_name).single.apply
    (shows_source sign n).group).plain
  refine exists_depth_returns (e := .app (.var b.name) (tree n)) ?_ rfl ?_ evaluates
  · simpa using shows
  · intro next positive
    exact (means_builtin b).app (means_tree n (by omega))

theorem exists_depth_binary (sign : Sign) (b : Builtin) (n m : Nat) {v : Nameless}
    (evaluates : Evaluates (app (app b.meaning (numeral n)) (numeral m)) v) :
    ∃ depth : Nat, ∀ o : Options, (depth : Int) ≤ o.maxDepth → o.renameFree = false →
      (new o).Returns (b.name ++ " (" ++ source sign n ++ ") (" ++ source sign m ++ ")") v := by
  have shows := (((Shows.identifier b.isIdentifier_name).single.apply
    (shows_source sign n).group).apply (shows_source sign m).group).plain
  refine exists_depth_returns (e := .app (.app (.var b.name) (tree n)) (tree m)) ?_ rfl ?_
    evaluates
  · simpa using shows
  · intro next positive
    exact ((means_builtin b).app (means_tree n (by omega))).app
      (means_tree m (by omega))

/-- Sums, products, successors and tests for zero of all numerals, however their abstractions are
written: in a new session that leaves free variables alone, the evaluation succeeds as soon as
its bound on the depth is large enough, and the answer is the numeral of the sum, of the product
or of the successor, or the definition of `true` or `false`. -/
theorem evaluate_arithmetic (sign : Sign) :
    (∀ n, ∃ t, Term.ofSource (source sign n) = .ok t ∧ t.idReading [] = numeral n) ∧
    ∀ n m : Nat, ∃ depth : Nat, ∀ o : Options, (depth : Int) ≤ o.maxDepth →
      o.renameFree = false →
      (new o).Returns ("plus (" ++ source sign n ++ ") (" ++ source sign m ++ ")")
        (numeral (n + m)) ∧
      (new o).Returns ("times (" ++ source sign n ++ ") (" ++ source sign m ++ ")")
        (numeral (n * m)) ∧
      (new o).Returns ("incr (" ++ source sign n ++ ")") (numeral (n + 1)) ∧
      ∃ t, (new o).lookup (if n = 0 then "true" else "false") = some t ∧
        (new o).Returns ("iszero (" ++ source sign n ++ ")") (t.idReading []) := by
  constructor
  · intro n
    have terminates : ((tree n).resolve [] 1).isNonTerminating = false := rfl
    exact ⟨_, (ofSource_of_shows (shows_source sign n) terminates).2,
      idReading_tree n Int.one_pos⟩
  · intro n m
    obtain ⟨sums, sum⟩ := exists_depth_binary sign .plus n m (evaluates_plus n m)
    obtain ⟨products, product⟩ := exists_depth_binary sign .times n m (evaluates_times n m)
    obtain ⟨successors, successor⟩ := exists_depth_unary sign .incr n (evaluates_incr n)
    obtain ⟨tests, test⟩ := exists_depth_unary sign .iszero n (evaluates_iszero n)
    refine ⟨sums + products + successors + tests, fun o large off => ⟨sum o (by omega) off,
      product o (by omega) off, successor o (by omega) off, ?_⟩⟩
    have answer := test o (by omega) off
    rw [lookup_new_eq]
    split
    · rename_i zero
      rw [if_pos zero] at answer
      obtain ⟨t, found, reading⟩ := exists_lookup_truth (b := .truth) (by decide)
      exact ⟨t, found, reading ▸ answer⟩
    · rename_i positive
      rw [if_neg positive] at answer
      obtain ⟨t, found, reading⟩ := exists_lookup_truth (b := .falsity) (by decide)
      exact ⟨t, found, reading ▸ answer⟩

end Session

end UntypedLambda
