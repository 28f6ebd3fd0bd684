import UntypedLambda.Proofs.Nameless.Evaluation

/-! # Evaluation within a depth

`normalize` evaluates a nameless term as far as its room allows and counts the contractions, also
those that came before it ran out of room.  What free variables are called plays no part in it:
they are constants, and giving them other names, be it the same name to two of them, changes
neither the outcome nor the count.

Main statements: `evaluates_of_normalize`, `exists_normalize`, `normalize_mapFree`. -/
set_option autoImplicit false

namespace UntypedLambda.Nameless

/-! ## Other names for free variables -/

def mapFree (σ : String → String) : Nameless → Nameless
  | bound n => bound n
  | constant c =>
    match c with
    | .free name => constant (.free (σ name))
    | c => constant c
  | abs body => abs (body.mapFree σ)
  | app fn arg => app (fn.mapFree σ) (arg.mapFree σ)

variable (σ : String → String)

theorem mapFree_rename (t : Nameless) (ρ : Nat → Nat) :
    (t.rename ρ).mapFree σ = (t.mapFree σ).rename ρ := by
  induction t generalizing ρ with
  | bound n => rfl
  | constant c => cases c <;> rfl
  | abs body ih => simp only [rename, mapFree, ih]
  | app fn arg ihf iha => simp only [rename, mapFree, ihf, iha]

theorem mapFree_lift (τ : Nat → Nameless) (n : Nat) :
    (lift τ n).mapFree σ = lift (fun n => (τ n).mapFree σ) n := by
  cases n with
  | zero => rfl
  | succ n => exact mapFree_rename σ (τ n) (· + 1)

theorem mapFree_subst (t : Nameless) (τ : Nat → Nameless) :
    (t.subst τ).mapFree σ = (t.mapFree σ).subst fun n => (τ n).mapFree σ := by
  induction t generalizing τ with
  | bound n => rfl
  | constant c => cases c <;> rfl
  | abs body ih => simp only [subst, mapFree, ih, mapFree_lift]
  | app fn arg ihf iha => simp only [subst, mapFree, ihf, iha]

theorem mapFree_instantiate (body arg : Nameless) :
    (body.instantiate arg).mapFree σ = (body.mapFree σ).instantiate (arg.mapFree σ) := by
  rw [instantiate, instantiate, mapFree_subst]
  congr 1
  funext n
  cases n <;> rfl

/-! ## Evaluation -/

/-- Function and argument first, then the contraction if there is one, then what it yields.  The
number that comes in counts the contractions of before, and goes out with those done here. -/
def normalize : (room : Nat) → Nameless → (betas : Nat) → Option Nameless × Nat
  | 0, _, betas => (none, betas)
  | _ + 1, bound n, betas => (some (bound n), betas)
  | _ + 1, constant c, betas => (some (constant c), betas)
  | room + 1, abs body, betas =>
    let (value, betas) := normalize room body betas
    (value.map abs, betas)
  | room + 1, app fn arg, betas =>
    match normalize room fn betas with
    | (none, betas) => (none, betas)
    | (some f, betas) =>
      match normalize room arg betas with
      | (none, betas) => (none, betas)
      | (some a, betas) =>
        match f with
        | abs body => normalize room (body.instantiate a) (betas + 1)
        | f => (some (app f a), betas)

theorem normalize_abs_eq_some {room betas betas' : Nat} {body v : Nameless} :
    (abs body).normalize (room + 1) betas = (some v, betas') ↔
      ∃ w, body.normalize room betas = (some w, betas') ∧ v = abs w := by
  rw [normalize]
  rcases body.normalize room betas with ⟨_ | w, b⟩
  · simp
  constructor
  · rintro ⟨⟩
    exact ⟨w, rfl, rfl⟩
  · rintro ⟨_, ⟨⟩, rfl⟩
    rfl

/-- An application has a value if its parts have, and what their contraction leaves, if they are a
redex. -/
theorem normalize_app_eq_some {room betas betas' : Nat} {fn arg v : Nameless} :
    (app fn arg).normalize (room + 1) betas = (some v, betas') ↔
      ∃ f a b b', fn.normalize room betas = (some f, b) ∧ arg.normalize room b = (some a, b') ∧
        (f.isAbs = false ∧ v = app f a ∧ betas' = b' ∨
          ∃ body, f = abs body ∧
            (body.instantiate a).normalize room (b' + 1) = (some v, betas')) := by
  rw [normalize]
  rcases left : fn.normalize room betas with ⟨_ | f, b⟩
  · simp
  rcases right : arg.normalize room b with ⟨_ | a, b'⟩
  · simp [right]
  simp only [right]
  constructor
  · intro value
    refine ⟨f, a, b, b', rfl, right, ?_⟩
    cases f with
    | abs body => exact Or.inr ⟨body, rfl, value⟩
    | _ =>
        cases value
        exact Or.inl ⟨rfl, rfl, rfl⟩
  · rintro ⟨_, _, _, _, ⟨⟩, again, rest⟩
    cases right.symm.trans again
    rcases rest with ⟨stuck, rfl, rfl⟩ | ⟨body, rfl, value⟩
    · cases f with
      | abs body => cases stuck
      | _ => rfl
    · exact value

/-- Whatever is found is a value. -/
theorem evaluates_of_normalize {room betas betas' : Nat} {t v : Nameless}
    (success : t.normalize room betas = (some v, betas')) : Evaluates t v := by
  induction room generalizing t v betas betas' with
  | zero => cases success
  | succ room ih =>
      cases t with
      | bound n =>
          cases success
          exact .bound n
      | constant c =>
          cases success
          exact .constant c
      | abs body =>
          obtain ⟨w, inside, rfl⟩ := normalize_abs_eq_some.mp success
          exact .abs (ih inside)
      | app fn arg =>
          obtain ⟨f, a, b, b', left, right, rest⟩ := normalize_app_eq_some.mp success
          rcases rest with ⟨stuck, rfl, _⟩ | ⟨body, rfl, reduct⟩
          · exact .app (ih left) stuck (ih right)
          · exact .redex (ih left) (ih right) (ih reduct)

/-- A value is found when there is room. -/
theorem exists_normalize {t v : Nameless} (evaluates : Evaluates t v) :
    ∃ enough, ∀ room ≥ enough, ∀ betas, ∃ betas', t.normalize room betas = (some v, betas') := by
  induction evaluates with
  | bound n =>
      refine ⟨1, fun room large betas => ⟨betas, ?_⟩⟩
      obtain ⟨room, rfl⟩ := Nat.exists_eq_add_of_le' large
      rfl
  | constant c =>
      refine ⟨1, fun room large betas => ⟨betas, ?_⟩⟩
      obtain ⟨room, rfl⟩ := Nat.exists_eq_add_of_le' large
      rfl
  | abs _ ih =>
      obtain ⟨enough, body⟩ := ih
      refine ⟨enough + 1, fun room large betas => ?_⟩
      obtain ⟨room, rfl⟩ := Nat.exists_eq_add_of_le' (Nat.le_trans (Nat.le_add_left 1 _) large)
      obtain ⟨betas', inside⟩ := body room (by omega) betas
      exact ⟨betas', normalize_abs_eq_some.mpr ⟨_, inside, rfl⟩⟩
  | app _ stuck _ ihf iha =>
      obtain ⟨k, function⟩ := ihf
      obtain ⟨l, argument⟩ := iha
      refine ⟨k + l + 1, fun room large betas => ?_⟩
      obtain ⟨room, rfl⟩ := Nat.exists_eq_add_of_le' (Nat.le_trans (Nat.le_add_left 1 _) large)
      obtain ⟨b, left⟩ := function room (by omega) betas
      obtain ⟨b', right⟩ := argument room (by omega) b
      exact ⟨b', normalize_app_eq_some.mpr
        ⟨_, _, b, b', left, right, Or.inl ⟨stuck, rfl, rfl⟩⟩⟩
  | redex _ _ _ ihf iha ihr =>
      obtain ⟨k, function⟩ := ihf
      obtain ⟨l, argument⟩ := iha
      obtain ⟨m, reduct⟩ := ihr
      refine ⟨k + l + m + 1, fun room large betas => ?_⟩
      obtain ⟨room, rfl⟩ := Nat.exists_eq_add_of_le' (Nat.le_trans (Nat.le_add_left 1 _) large)
      obtain ⟨b, left⟩ := function room (by omega) betas
      obtain ⟨b', right⟩ := argument room (by omega) b
      obtain ⟨betas', value⟩ := reduct room (by omega) (b' + 1)
      exact ⟨betas', normalize_app_eq_some.mpr
        ⟨_, _, b, b', left, right, Or.inr ⟨_, rfl, value⟩⟩⟩

theorem normalize_mapFree (room : Nat) (t : Nameless) (betas : Nat) :
    (t.mapFree σ).normalize room betas =
      ((t.normalize room betas).1.map (mapFree σ), (t.normalize room betas).2) := by
  induction room generalizing t betas with
  | zero => rfl
  | succ room ih =>
      cases t with
      | bound n => rfl
      | constant c => cases c <;> rfl
      | abs body =>
          simp only [mapFree, normalize, ih, Option.map_map]
          rfl
      | app fn arg =>
          simp only [mapFree, normalize, ih fn]
          rcases normalize room fn betas with ⟨_ | f, betas⟩
          · rfl
          simp only [Option.map_some, ih arg]
          rcases normalize room arg betas with ⟨_ | a, betas⟩
          · rfl
          cases f with
          | abs body => simp only [Option.map_some, mapFree, ← mapFree_instantiate, ih]
          | constant c => cases c <;> rfl
          | _ => rfl

end UntypedLambda.Nameless
