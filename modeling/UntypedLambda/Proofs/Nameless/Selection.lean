import UntypedLambda.Proofs.Nameless.Numerals

/-! # Pairs, trees and conditionals

A pair waits for a function that is given both components, and the truth values are the functions
that choose between two arguments.  A tree is a pair of a datum and a pair.  All arguments are
evaluated, also those that are not chosen.

Main statements: `evaluates_first`, `evaluates_left`, `evaluates_choice_truth` and the like. -/
set_option autoImplicit false

namespace UntypedLambda.Nameless

/-! ## What the prelude means -/

def choice : Nameless := abs (abs (abs (app (app (bound 2) (bound 1)) (bound 0))))

def pair : Nameless := abs (abs (abs (app (app (bound 0) (bound 2)) (bound 1))))

def first : Nameless := abs (app (bound 0) truth)

def second : Nameless := abs (app (bound 0) falsity)

def tree : Nameless :=
  abs (abs (abs (app (app pair (bound 2)) (app (app pair (bound 1)) (bound 0)))))

def datum : Nameless := abs (app first (bound 0))

def left : Nameless := abs (app first (app second (bound 0)))

def right : Nameless := abs (app second (app second (bound 0)))

theorem isNormal_pair : IsNormal pair := by simp [pair, isAbs]

theorem isNormal_choice : IsNormal choice := by simp [choice, isAbs]

theorem isNormal_first : IsNormal first := by simp [first, truth, isAbs]

theorem isNormal_second : IsNormal second := by simp [second, falsity, isAbs]

/-! ## Choosing -/

/-- What a pair of two values is evaluated to. -/
def both (a b : Nameless) : Nameless :=
  abs (app (app (bound 0) (a.rename (· + 1))) (b.rename (· + 1)))

theorem subst_both (a b : Nameless) (σ : Nat → Nameless) :
    (both a b).subst σ = both (a.subst σ) (b.subst σ) := by
  simp [both, subst, subst_lift_rename, lift]

section Values
variable {fn t u w a b c k q : Nameless}

theorem evaluates_of_truth (function : Evaluates fn truth) (left : Evaluates t a)
    (right : Evaluates u b) : Evaluates (app (app fn t) u) a := by
  have kept : Evaluates (app fn t) (abs (a.rename (· + 1))) :=
    evaluates_of_instantiate_eq function left rfl
      (isNormal_abs.mpr (isNormal_rename.mpr left.isNormal))
  exact evaluates_of_instantiate_eq kept right (instantiate_rename_succ a b) left.isNormal

theorem evaluates_of_falsity (function : Evaluates fn falsity) (left : Evaluates t a)
    (right : Evaluates u b) : Evaluates (app (app fn t) u) b :=
  .redex (.redex function left (.abs (.bound 0))) right right.isNormal.evaluates

@[simp] theorem isNormal_both : IsNormal (both a b) ↔ IsNormal a ∧ IsNormal b := by
  simp [both, isAbs, isNormal_rename]

theorem evaluates_pair (left : Evaluates t a) (right : Evaluates u b) :
    Evaluates (app (app pair t) u) (both a b) := by
  have once : Evaluates (app pair t)
      (abs (abs (app (app (bound 0) ((a.rename (· + 1)).rename (· + 1))) (bound 1)))) :=
    evaluates_of_instantiate_eq isNormal_pair.evaluates left rfl
      (by simp [isAbs, isNormal_rename, left.isNormal])
  have normal := isNormal_both.mpr ⟨left.isNormal, right.isNormal⟩
  refine evaluates_of_instantiate_eq once right ?_ normal
  simp [instantiate, subst, subst_lift_rename, subst_point_rename, both, lift, point]

/-! ### Components -/

/-- A pair that is given a chooser gives it both components. -/
theorem evaluates_component (function : Evaluates fn (both a b)) (chooser : Evaluates k q)
    (choice : Evaluates (app (app q a) b) c) : Evaluates (app fn k) c := by
  refine .redex function chooser ?_
  simpa only [instantiate, subst, subst_point_rename, point] using choice

theorem evaluates_left_component (function : Evaluates fn (both a b))
    (chooser : Evaluates k truth) : Evaluates (app fn k) a := by
  obtain ⟨normalLeft, normalRight⟩ := isNormal_both.mp function.isNormal
  exact evaluates_component function chooser
    (evaluates_of_truth isNormal_truth.evaluates normalLeft.evaluates normalRight.evaluates)

theorem evaluates_right_component (function : Evaluates fn (both a b))
    (chooser : Evaluates k falsity) : Evaluates (app fn k) b := by
  obtain ⟨normalLeft, normalRight⟩ := isNormal_both.mp function.isNormal
  exact evaluates_component function chooser
    (evaluates_of_falsity isNormal_falsity.evaluates normalLeft.evaluates normalRight.evaluates)

/-! ## Selectors -/

theorem evaluates_first (function : Evaluates fn first) (argument : Evaluates t (both a b)) :
    Evaluates (app fn t) a := by
  have pair := argument.isNormal.evaluates
  exact .redex function argument (evaluates_left_component pair isNormal_truth.evaluates)

theorem evaluates_second (function : Evaluates fn second) (argument : Evaluates t (both a b)) :
    Evaluates (app fn t) b := by
  have pair := argument.isNormal.evaluates
  exact .redex function argument (evaluates_right_component pair isNormal_falsity.evaluates)

theorem evaluates_choice_truth (left : Evaluates t a) (right : Evaluates u b) :
    Evaluates (app (app (app choice truth) t) u) a := by
  -- the condition is evaluated below the binders of what it chooses from
  have condition : Evaluates (app choice truth) truth := by
    refine .redex isNormal_choice.evaluates isNormal_truth.evaluates (.abs (.abs ?_))
    exact evaluates_of_truth isNormal_truth.evaluates (.bound 1) (.bound 0)
  exact evaluates_of_truth condition left right

theorem evaluates_choice_falsity (left : Evaluates t a) (right : Evaluates u b) :
    Evaluates (app (app (app choice falsity) t) u) b := by
  have condition : Evaluates (app choice falsity) falsity := by
    refine .redex isNormal_choice.evaluates isNormal_falsity.evaluates (.abs (.abs ?_))
    exact evaluates_of_falsity isNormal_falsity.evaluates (.bound 1) (.bound 0)
  exact evaluates_of_falsity condition left right

/-! ## Trees -/

theorem evaluates_tree (left : Evaluates t a) (middle : Evaluates u b) (right : Evaluates w c) :
    Evaluates (app (app (app tree t) u) w) (both a (both b c)) := by
  have ready : Evaluates tree (abs (abs (abs (both (bound 2) (both (bound 1) (bound 0)))))) :=
    .abs (.abs (.abs (evaluates_pair (.bound 2) (evaluates_pair (.bound 1) (.bound 0)))))
  have once : Evaluates (app tree t)
      (abs (abs (both ((a.rename (· + 1)).rename (· + 1)) (both (bound 1) (bound 0))))) := by
    refine evaluates_of_instantiate_eq ready left ?_ ?_
    · simp only [instantiate, subst, subst_both]; rfl
    · simp [isNormal_rename, left.isNormal]
  have twice : Evaluates (app (app tree t) u)
      (abs (both (a.rename (· + 1)) (both (b.rename (· + 1)) (bound 0)))) := by
    refine evaluates_of_instantiate_eq once middle ?_ ?_
    · simp only [instantiate, subst, subst_both, subst_lift_rename, subst_point_rename]; rfl
    · simp [isNormal_rename, left.isNormal, middle.isNormal]
  refine evaluates_of_instantiate_eq twice right ?_ ?_
  · simp only [instantiate, subst_both, subst_point_rename]; rfl
  · simp [left.isNormal, middle.isNormal, right.isNormal]

theorem evaluates_datum (argument : Evaluates t (both a b)) : Evaluates (app datum t) a := by
  have ready : Evaluates datum first := by
    refine .abs (.redex isNormal_first.evaluates (.bound 0) ?_)
    exact .app (.bound 0) rfl isNormal_truth.evaluates
  exact evaluates_first ready argument

/-- The second component of a variable, below a binder. -/
theorem evaluates_second_bound (n : Nat) :
    Evaluates (app second (bound n)) (app (bound n) falsity) :=
  .redex isNormal_second.evaluates (.bound n) (.app (.bound n) rfl isNormal_falsity.evaluates)

theorem evaluates_left (argument : Evaluates t (both a (both b c))) :
    Evaluates (app left t) b := by
  have ready : Evaluates left (abs (app (app (bound 0) falsity) truth)) := by
    have inner := evaluates_second_bound 0
    refine .abs (.redex isNormal_first.evaluates inner ?_)
    exact .app inner.isNormal.evaluates rfl isNormal_truth.evaluates
  have pair := argument.isNormal.evaluates
  have rest := evaluates_right_component pair isNormal_falsity.evaluates
  exact .redex ready argument (evaluates_left_component rest isNormal_truth.evaluates)

theorem evaluates_right (argument : Evaluates t (both a (both b c))) :
    Evaluates (app right t) c := by
  have ready : Evaluates right (abs (app (app (bound 0) falsity) falsity)) := by
    have inner := evaluates_second_bound 0
    refine .abs (.redex isNormal_second.evaluates inner ?_)
    exact .app inner.isNormal.evaluates rfl isNormal_falsity.evaluates
  have pair := argument.isNormal.evaluates
  have rest := evaluates_right_component pair isNormal_falsity.evaluates
  exact .redex ready argument (evaluates_right_component rest isNormal_falsity.evaluates)

end Values

end UntypedLambda.Nameless
