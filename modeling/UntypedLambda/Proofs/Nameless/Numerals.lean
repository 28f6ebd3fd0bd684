import UntypedLambda.Proofs.Nameless.Evaluation

/-! # Numerals

The numeral of `n` applies a function `n` times.  An increment of something that is no numeral
waits for the function below two binders, so a sum is first evaluated to a numeral around the
other summand, which is then opened up below the same two binders.

Main statements: `evaluates_plus`, `evaluates_times`, `evaluates_incr`, `evaluates_iszero`. -/
set_option autoImplicit false

namespace UntypedLambda.Nameless

/-! ## A function applied several times -/

def power (f x : Nameless) : Nat → Nameless
  | 0 => x
  | n + 1 => app f (power f x n)

@[simp] theorem subst_power (f x : Nameless) (n : Nat) (σ : Nat → Nameless) :
    (power f x n).subst σ = power (f.subst σ) (x.subst σ) n := by
  induction n with
  | zero => rfl
  | succ n ih => simp only [power, subst, ih]

theorem isNormal_power {f x : Nameless} (stuck : f.isAbs = false) (normalFn : IsNormal f)
    (normalArg : IsNormal x) (n : Nat) : IsNormal (power f x n) := by
  induction n with
  | zero => exact normalArg
  | succ n ih => exact isNormal_app.mpr ⟨stuck, normalFn, ih⟩

theorem Evaluates.power {f x v : Nameless} (stuck : f.isAbs = false) (normal : IsNormal f)
    (argument : Evaluates x v) (n : Nat) :
    Evaluates (power f x n) (Nameless.power f v n) := by
  induction n with
  | zero => exact argument
  | succ n ih => exact .app normal.evaluates stuck ih

theorem power_power (f x : Nameless) (n m : Nat) :
    power f (power f x m) n = power f x (n + m) := by
  induction n with
  | zero => rw [Nat.zero_add]; rfl
  | succ n ih => rw [Nat.succ_add, power, power, ih]

/-! ## Numerals and what the prelude does with them -/

def numeral (n : Nat) : Nameless := abs (abs (power (bound 1) (bound 0) n))

theorem isNormal_numeral (n : Nat) : IsNormal (numeral n) :=
  isNormal_abs.mpr (isNormal_abs.mpr (isNormal_power rfl (by simp) (by simp) n))

theorem closed_numeral (n : Nat) : (numeral n).Closed := by
  intro σ
  simp only [numeral, subst, subst_power]
  rfl

/-- A numeral that moved below a binder. -/
theorem evaluates_numeral_renamed (n : Nat) :
    Evaluates ((numeral n).rename (· + 1)) (numeral n) := by
  rw [(closed_numeral n).rename]
  exact (isNormal_numeral n).evaluates

def truth : Nameless := abs (abs (bound 1))

def falsity : Nameless := abs (abs (bound 0))

def incr : Nameless :=
  abs (abs (abs (app (bound 1) (app (app (bound 2) (bound 1)) (bound 0)))))

def plus : Nameless := abs (abs (app (app (bound 1) incr) (bound 0)))

def times : Nameless := abs (abs (app (app (bound 1) (app plus (bound 0))) falsity))

def iszero : Nameless := abs (app (app (bound 0) (abs falsity)) truth)

theorem isNormal_truth : IsNormal truth := by simp [truth]

theorem isNormal_falsity : IsNormal falsity := by simp [falsity]

theorem isNormal_incr : IsNormal incr := by simp [incr, isAbs]

theorem isNormal_plus : IsNormal plus := by simp [plus, incr, isAbs]

theorem isNormal_iszero : IsNormal iszero := by simp [iszero, falsity, truth, isAbs]

/-! ## A function of two arguments below two binders -/

/-- A function that moves in below two binders and is given their variables comes to its body. -/
theorem evaluates_opened {fn body : Nameless}
    (function : Evaluates fn (((abs (abs body)).rename (· + 1)).rename (· + 1)))
    (normal : IsNormal body) :
    Evaluates (app (app fn (bound 1)) (bound 0)) body := by
  have once : Evaluates (app fn (bound 1)) ((abs body).rename (· + 1)) := by
    have opened : ((((abs body).rename (up (· + 1))).rename (up (· + 1)))).instantiate (bound 1) =
        (abs body).rename (· + 1) := by
      rw [instantiate, subst_rename, subst_rename, rename_eq_subst]
      congr 1
      funext n
      cases n <;> rfl
    refine .redex function (.bound 1) ?_
    rw [opened]
    exact IsNormal.evaluates (isNormal_rename.mpr (isNormal_abs.mpr normal))
  have back : (body.rename (up (· + 1))).instantiate (bound 0) = body := by
    rw [instantiate, subst_rename]
    refine Eq.trans ?_ (subst_bound body)
    congr 1
    funext n
    cases n <;> rfl
  refine .redex once (.bound 0) ?_
  rw [back]
  exact normal.evaluates

theorem evaluates_numeral_opened (n : Nat) :
    Evaluates (app (app (numeral n) (bound 1)) (bound 0)) (power (bound 1) (bound 0) n) := by
  apply evaluates_opened _ (isNormal_power rfl (by simp) (by simp) n)
  have same : ((numeral n).rename (· + 1)).rename (· + 1) = numeral n := by
    rw [(closed_numeral n).rename, (closed_numeral n).rename]
  rw [← numeral, same]
  exact (isNormal_numeral n).evaluates

/-! ## Increments -/

/-- An increment of a function of two arguments. -/
theorem evaluates_incr_abs {fn arg body : Nameless} (function : Evaluates fn incr)
    (argument : Evaluates arg (abs (abs body))) :
    Evaluates (app fn arg) (abs (abs (app (bound 1) body))) := by
  have normal : IsNormal (abs (abs body)) := argument.isNormal
  have moved : IsNormal (((abs (abs body)).rename (· + 1)).rename (· + 1)) :=
    isNormal_rename.mpr (isNormal_rename.mpr normal)
  refine .redex function argument (.abs (.abs (.app (.bound 1) rfl ?_)))
  exact evaluates_opened moved.evaluates (by simpa using normal)

/-- The successor of a numeral. -/
theorem evaluates_incr (n : Nat) : Evaluates (app incr (numeral n)) (numeral (n + 1)) :=
  evaluates_incr_abs isNormal_incr.evaluates (isNormal_numeral n).evaluates

/-- What `n` increments come to: below the binders of the function and its argument, the term
is given both, and then the function is applied `n` times. -/
def increased (t : Nameless) : Nat → Nameless
  | 0 => t
  | n + 1 => abs (abs (power (bound 1)
      (app (app ((t.rename (· + 1)).rename (· + 1)) (bound 1)) (bound 0)) (n + 1)))

theorem instantiate_increased (t : Nameless) (n : Nat) :
    (increased (bound 0) n).instantiate t = increased t n := by
  cases n with
  | zero => rfl
  | succ n =>
      simp only [increased, instantiate, subst, subst_power]
      rfl

/-- Increments of a variable. -/
theorem evaluates_power_incr (n : Nat) :
    Evaluates (power incr (bound 0) n) (increased (bound 0) n) := by
  induction n with
  | zero => exact .bound 0
  | succ n ih =>
      -- the first increment waits for the variable, and every further one finds two binders
      cases n with
      | zero =>
          refine .redex isNormal_incr.evaluates (.bound 0) ?_
          exact IsNormal.evaluates (by simp [instantiate, subst, point, lift, rename, isAbs])
      | succ n => exact evaluates_incr_abs isNormal_incr.evaluates ih

/-- Once the term is a numeral, it is opened up. -/
theorem evaluates_increased (n m : Nat) :
    Evaluates (increased (numeral m) n) (numeral (n + m)) := by
  cases n with
  | zero =>
      rw [Nat.zero_add]
      exact (isNormal_numeral m).evaluates
  | succ n =>
      have opened := (evaluates_numeral_opened m).power rfl (isNormal_bound 1) (n + 1)
      rw [power_power] at opened
      simp only [increased, (closed_numeral m).rename]
      exact .abs (.abs opened)

/-- A numeral applied to `incr`. -/
theorem evaluates_numeral_incr {fn : Nameless} {n : Nat} (function : Evaluates fn (numeral n)) :
    Evaluates (app fn incr) (abs (increased (bound 0) n)) := by
  refine .redex function isNormal_incr.evaluates (.abs ?_)
  rw [subst_power]
  exact evaluates_power_incr n

/-! ## Sums and products -/

theorem evaluates_plus_one (n : Nat) :
    Evaluates (app plus (numeral n)) (abs (increased (bound 0) n)) := by
  refine .redex isNormal_plus.evaluates (isNormal_numeral n).evaluates (.abs ?_)
  have incremented := evaluates_numeral_incr (evaluates_numeral_renamed n)
  refine .redex incremented (.bound 0) ?_
  rw [instantiate_increased]
  have normal : IsNormal (abs (increased (bound 0) n)) := incremented.isNormal
  exact (isNormal_abs.mp normal).evaluates

theorem evaluates_plus (n m : Nat) :
    Evaluates (app (app plus (numeral n)) (numeral m)) (numeral (n + m)) := by
  refine .redex (evaluates_plus_one n) (isNormal_numeral m).evaluates ?_
  rw [instantiate_increased]
  exact evaluates_increased n m

/-- What a numeral adds again and again in a product, below the binder of the other factor. -/
def adder (index : Nat) : Nameless := abs (app (app (bound (index + 1)) incr) (bound 0))

theorem isNormal_adder (index : Nat) : IsNormal (adder index) := by
  simp [adder, incr, isAbs]

theorem evaluates_power_adder (n : Nat) :
    Evaluates (power (adder 1) (bound 0) n) (power (app (bound 1) incr) (bound 0) n) := by
  induction n with
  | zero => exact .bound 0
  | succ n ih =>
      have normal := isNormal_power (f := app (bound 1) incr) (x := bound 0) rfl
        (by simp [incr, isAbs]) (by simp) (n + 1)
      exact .redex (isNormal_adder 1).evaluates ih normal.evaluates

theorem evaluates_times_one (n : Nat) :
    Evaluates (app times (numeral n)) (abs (power (app (bound 0) incr) (numeral 0) n)) := by
  -- a product is evaluated below its binders before it has a factor
  have ready : Evaluates times (abs (abs (app (app (bound 1) (adder 0)) (numeral 0)))) := by
    refine .abs (.abs (.app (.app (.bound 1) rfl ?_) rfl (isNormal_numeral 0).evaluates))
    exact .redex isNormal_plus.evaluates (.bound 0) (isNormal_adder 0).evaluates
  have added : Evaluates (app ((numeral n).rename (· + 1)) (adder 0))
      (abs (power (app (bound 1) incr) (bound 0) n)) := by
    refine .redex (evaluates_numeral_renamed n) (isNormal_adder 0).evaluates (.abs ?_)
    rw [subst_power]
    exact evaluates_power_adder n
  refine .redex ready (isNormal_numeral n).evaluates (.abs ?_)
  refine .redex added (isNormal_numeral 0).evaluates ?_
  rw [instantiate, subst_power]
  have normal := isNormal_power (f := app (bound 0) incr) rfl (by simp [incr, isAbs])
    (isNormal_numeral 0) n
  exact normal.evaluates

theorem evaluates_times (n m : Nat) :
    Evaluates (app (app times (numeral n)) (numeral m)) (numeral (n * m)) := by
  have sum : Evaluates (power (app (numeral m) incr) (numeral 0) n) (numeral (n * m)) := by
    induction n with
    | zero =>
        rw [Nat.zero_mul]
        exact (isNormal_numeral 0).evaluates
    | succ n ih =>
        refine .redex (evaluates_numeral_incr (isNormal_numeral m).evaluates) ih ?_
        rw [instantiate_increased, Nat.succ_mul, Nat.add_comm]
        exact evaluates_increased m (n * m)
  refine .redex (evaluates_times_one n) (isNormal_numeral m).evaluates ?_
  rw [instantiate, subst_power]
  exact sum

/-! ## The test for zero -/

theorem isNormal_dropper : IsNormal (abs falsity) := isNormal_abs.mpr isNormal_falsity

theorem evaluates_power_dropper (n : Nat) :
    Evaluates (power (abs falsity) (bound 0) (n + 1)) falsity := by
  induction n with
  | zero => exact .redex isNormal_dropper.evaluates (.bound 0) isNormal_falsity.evaluates
  | succ n ih => exact .redex isNormal_dropper.evaluates ih isNormal_falsity.evaluates

theorem evaluates_iszero (n : Nat) :
    Evaluates (app iszero (numeral n)) (if n = 0 then truth else falsity) := by
  have initial := isNormal_truth.evaluates
  refine .redex isNormal_iszero.evaluates (isNormal_numeral n).evaluates ?_
  cases n with
  | zero =>
      refine @Evaluates.redex _ (bound 0) _ _ _ ?_ initial initial
      exact .redex (isNormal_numeral 0).evaluates isNormal_dropper.evaluates (.abs (.bound 0))
  | succ n =>
      refine @Evaluates.redex _ falsity _ _ _ ?_ initial isNormal_falsity.evaluates
      refine .redex (isNormal_numeral (n + 1)).evaluates isNormal_dropper.evaluates (.abs ?_)
      rw [subst_power]
      exact evaluates_power_dropper n

end UntypedLambda.Nameless
