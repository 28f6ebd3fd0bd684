import UntypedLambda.Proofs.Term.Fold
import UntypedLambda.Proofs.Term.PostOrder

/-! # How far a fold comes

A fold stops at the first place, from the left, that is a hole or stands too deep, and comes to the
root if there is no such place.  What it does until then it does node by node in post-order, and
each node finds the values of its subterms among those that the nodes before it have left.

Main statements: `calls_postOrder`, `within_of_firstObstacle`, and `fold_exact`, which puts them
together and says what is visited. -/
set_option autoImplicit false

namespace UntypedLambda.Term

/-! ## Places and heights -/

theorem holeFree_iff {t : Term} : t.HoleFree ↔ ∀ p, t.at? p ≠ some hole := by
  constructor
  · intro whole p
    induction p generalizing t with
    | nil =>
        rintro ⟨⟩
        exact whole
    | cons step p ih =>
        cases step <;> cases t <;> simp only [at?, ne_eq, reduceCtorEq, not_false_eq_true]
        case body.abs name id body => exact ih whole
        case fn.app fn arg => exact ih whole.1
        case arg.app fn arg => exact ih whole.2
  · intro present
    induction t with
    | hole => exact present [] rfl
    | var name id renamed => trivial
    | abs name id body ih => exact ih fun p => present (.body :: p)
    | app fn arg ihf iha =>
        exact ⟨ihf fun p => present (.fn :: p), iha fun p => present (.arg :: p)⟩

theorem length_le_height {p : Path} {t u : Term} (found : t.at? p = some u) :
    p.length ≤ t.height := by
  induction p generalizing t with
  | nil => exact Nat.zero_le _
  | cons step p ih =>
      cases step <;> cases t <;> simp only [at?, reduceCtorEq] at found
      case body.abs name id body => exact Nat.succ_le_succ (ih found)
      case fn.app fn arg =>
        exact Nat.succ_le_succ (Nat.le_trans (ih found) (Nat.le_max_left _ _))
      case arg.app fn arg =>
        exact Nat.succ_le_succ (Nat.le_trans (ih found) (Nat.le_max_right _ _))

theorem exists_length_eq_height (t : Term) : ∃ p u, t.at? p = some u ∧ p.length = t.height := by
  induction t with
  | hole => exact ⟨[], _, rfl, rfl⟩
  | var name id renamed => exact ⟨[], _, rfl, rfl⟩
  | abs name id body ih =>
      obtain ⟨p, u, found, deep⟩ := ih
      exact ⟨.body :: p, u, found, congrArg Nat.succ deep⟩
  | app fn arg ihf iha =>
      rcases Nat.le_total arg.height fn.height with higher | higher
      · obtain ⟨p, u, found, deep⟩ := ihf
        exact ⟨.fn :: p, u, found, by simp [height, deep, higher]⟩
      · obtain ⟨p, u, found, deep⟩ := iha
        exact ⟨.arg :: p, u, found, by simp [height, deep, higher]⟩

/-- There is a node everywhere, and none is deeper than `depth`, where the root has depth zero. -/
structure Fits (depth : Nat) (t : Term) : Prop where
  whole : ∀ p, t.at? p ≠ some hole
  shallow : ∀ p node, t.at? p = some node → p.length ≤ depth

theorem fits_iff {depth : Nat} {t : Term} : t.Fits depth ↔ t.HoleFree ∧ t.height ≤ depth := by
  rw [holeFree_iff]
  constructor
  · rintro ⟨whole, shallow⟩
    obtain ⟨p, u, found, deep⟩ := t.exists_length_eq_height
    exact ⟨whole, deep ▸ shallow p u found⟩
  · rintro ⟨whole, low⟩
    exact ⟨whole, fun p node found => Nat.le_trans (length_le_height found) low⟩

namespace Fold

/-! ## The first obstacle -/

/-- With so much room a fold cannot pass this place. -/
inductive Obstacle (room : Nat) (t : Term) (p : Path) : WalkError → Prop where
  | hole (absent : t.at? p = some .hole) (near : p.length < room) : Obstacle room t p .hole
  | tooDeep {u : Term} (found : t.at? p = some u) (far : p.length = room) :
      Obstacle room t p .tooDeep

/-- Of all obstacles the path leads to the leftmost. -/
structure FirstObstacle (room : Nat) (t : Term) (q : Path) (e : WalkError) : Prop where
  obstacle : Obstacle room t q e
  first : ∀ p other, Obstacle room t p other → p = q ∨ Path.LeftOf q p

variable {room : Nat} {t child : Term} {p q : Path} {step : Step} {e : WalkError}

theorem Obstacle.exists_at? (obstacle : Obstacle room t p e) : ∃ u, t.at? p = some u := by
  cases obstacle with
  | hole absent _ => exact ⟨_, absent⟩
  | tooDeep found _ => exact ⟨_, found⟩

theorem not_obstacle (whole : t.HoleFree) (fits : t.height < room) : ¬ Obstacle room t p e := by
  rintro (⟨absent, _⟩ | ⟨found, far⟩)
  · exact holeFree_iff.mp whole p absent
  · exact absurd (far ▸ length_le_height found) (Nat.not_le_of_lt fits)

theorem obstacle_cons_iff (below : t.at? (step :: p) = child.at? p) :
    Obstacle (room + 1) t (step :: p) e ↔ Obstacle room child p e := by
  constructor
  · rintro (⟨absent, near⟩ | ⟨found, far⟩)
    · exact .hole (below ▸ absent) (Nat.lt_of_succ_lt_succ near)
    · exact .tooDeep (below ▸ found) (Nat.succ.inj far)
  · rintro (⟨absent, near⟩ | ⟨found, far⟩)
    · exact .hole (below.trans absent) (Nat.succ_lt_succ near)
    · exact .tooDeep (below.trans found) (congrArg Nat.succ far)

theorem obstacle_hole (obstacle : Obstacle (room + 1) .hole p e) : p = [] ∧ e = .hole := by
  obtain ⟨u, found⟩ := obstacle.exists_at?
  rcases p with _ | ⟨_ | _ | _, q⟩
  · rcases obstacle with _ | ⟨_, ⟨⟩⟩
    exact ⟨rfl, rfl⟩
  all_goals cases found

section
variable {name : String} {id : Int} {renamed : Bool} {body fn arg : Term}

theorem not_obstacle_var : ¬ Obstacle (room + 1) (.var name id renamed) p e :=
  not_obstacle trivial (Nat.succ_pos room)

theorem obstacle_abs (obstacle : Obstacle (room + 1) (.abs name id body) p e) :
    ∃ q, p = .body :: q ∧ Obstacle room body q e := by
  obtain ⟨u, found⟩ := obstacle.exists_at?
  rcases p with _ | ⟨_ | _ | _, q⟩
  · rcases obstacle with ⟨⟨⟩, _⟩ | ⟨_, ⟨⟩⟩
  · exact ⟨q, rfl, (obstacle_cons_iff rfl).mp obstacle⟩
  · cases found
  · cases found

theorem obstacle_app (obstacle : Obstacle (room + 1) (.app fn arg) p e) :
    (∃ q, p = .fn :: q ∧ Obstacle room fn q e) ∨ ∃ q, p = .arg :: q ∧ Obstacle room arg q e := by
  obtain ⟨u, found⟩ := obstacle.exists_at?
  rcases p with _ | ⟨_ | _ | _, q⟩
  · rcases obstacle with ⟨⟨⟩, _⟩ | ⟨_, ⟨⟩⟩
  · cases found
  · exact Or.inl ⟨q, rfl, (obstacle_cons_iff rfl).mp obstacle⟩
  · exact Or.inr ⟨q, rfl, (obstacle_cons_iff rfl).mp obstacle⟩

end

namespace FirstObstacle

/-- A first obstacle below a child is the first of the child. -/
theorem below (found : FirstObstacle (room + 1) t (step :: q) e)
    (child_eq : ∀ p, t.at? (step :: p) = child.at? p) : FirstObstacle room child q e where
  obstacle := (obstacle_cons_iff (child_eq q)).mp found.obstacle
  first := by
    intro p other obstacle
    simpa using found.first (step :: p) other ((obstacle_cons_iff (child_eq p)).mpr obstacle)

theorem tooDeep (t : Term) : FirstObstacle 0 t [] .tooDeep where
  obstacle := .tooDeep rfl rfl
  first := by
    rintro p other (⟨_, near⟩ | ⟨_, far⟩)
    · exact absurd near (Nat.not_lt_zero _)
    · exact Or.inl (List.length_eq_zero_iff.mp far)

theorem hole (room : Nat) : FirstObstacle (room + 1) .hole [] .hole where
  obstacle := .hole rfl (Nat.succ_pos room)
  first := by
    intro p other obstacle
    exact Or.inl (obstacle_hole obstacle).1

variable {name : String} {id : Int} {t u : Term}

theorem body (found : FirstObstacle room t q e) :
    FirstObstacle (room + 1) (.abs name id t) (.body :: q) e where
  obstacle := (obstacle_cons_iff rfl).mpr found.obstacle
  first := by
    intro p other obstacle
    obtain ⟨p, rfl, inside⟩ := obstacle_abs obstacle
    simpa using found.first p other inside

theorem fn (found : FirstObstacle room t q e) :
    FirstObstacle (room + 1) (.app t u) (.fn :: q) e where
  obstacle := (obstacle_cons_iff rfl).mpr found.obstacle
  first := by
    intro p other obstacle
    rcases obstacle_app obstacle with ⟨p, rfl, inside⟩ | ⟨p, rfl, _⟩
    · simpa using found.first p other inside
    · exact Or.inr Path.fn_leftOf_arg

theorem arg (clear : ∀ p other, ¬ Obstacle room t p other) (found : FirstObstacle room u q e) :
    FirstObstacle (room + 1) (.app t u) (.arg :: q) e where
  obstacle := (obstacle_cons_iff rfl).mpr found.obstacle
  first := by
    intro p other obstacle
    rcases obstacle_app obstacle with ⟨p, rfl, inside⟩ | ⟨p, rfl, inside⟩
    · exact absurd inside (clear p other)
    · simpa using found.first p other inside

end FirstObstacle

/-- What is not whole, or is too high, has a first obstacle. -/
theorem exists_firstObstacle (unfit : ¬ (t.HoleFree ∧ t.height < room)) :
    ∃ q e, FirstObstacle room t q e := by
  induction room generalizing t with
  | zero => exact ⟨[], _, .tooDeep t⟩
  | succ room ih =>
      cases t with
      | hole => exact ⟨[], _, .hole room⟩
      | var name id renamed => exact absurd ⟨trivial, Nat.succ_pos room⟩ unfit
      | abs name id body =>
          have unfitBody : ¬ (body.HoleFree ∧ body.height < room) := fun ⟨whole, low⟩ =>
            unfit ⟨whole, Nat.succ_lt_succ low⟩
          obtain ⟨q, e, found⟩ := ih unfitBody
          exact ⟨.body :: q, e, found.body⟩
      | app fn arg =>
          by_cases fits : fn.HoleFree ∧ fn.height < room
          · have unfitArg : ¬ (arg.HoleFree ∧ arg.height < room) := fun ⟨whole, low⟩ =>
              unfit ⟨⟨fits.1, whole⟩, Nat.succ_lt_succ (Nat.max_lt.mpr ⟨fits.2, low⟩)⟩
            obtain ⟨q, e, found⟩ := ih unfitArg
            exact ⟨.arg :: q, e, found.arg fun _ _ => not_obstacle fits.1 fits.2⟩
          · obtain ⟨q, e, found⟩ := ih fits
            exact ⟨.fn :: q, e, found.fn⟩

/-- To the left of the argument that holds the first obstacle there is none. -/
theorem FirstObstacle.fits_fn {fn arg : Term}
    (found : FirstObstacle (room + 1) (.app fn arg) (.arg :: q) e) :
    fn.HoleFree ∧ fn.height < room := by
  refine Decidable.byContradiction fun unfit => ?_
  obtain ⟨p, other, inside⟩ := exists_firstObstacle unfit
  have outside : Obstacle (room + 1) (.app fn arg) (.fn :: p) other :=
    (obstacle_cons_iff rfl).mpr inside.obstacle
  simpa using found.first _ _ outside

/-! ## Node by node -/

section
variable {σ α : Type} (alg : Algebra σ α)

/-- What is done at one node: the values of its subterms are taken from the stack, where the last
lies on top, and its own is put there. -/
def call : Term → List α × σ → Option (List α × σ)
  | .var name id renamed, (values, s) =>
    let (value, s) := alg.var name id renamed s
    some (value :: values, s)
  | .abs name id body, (inner :: values, s) =>
    let (value, s) := alg.abs name id body inner s
    some (value :: values, s)
  | .app fn arg, (right :: left :: values, s) =>
    let (value, s) := alg.app fn arg left right s
    some (value :: values, s)
  | _, _ => none

/-- One node after the other; there is no result if a node does not find the values it needs. -/
def calls (nodes : List Term) (start : List α × σ) : Option (List α × σ) :=
  nodes.foldlM (fun state node => call alg node state) start

theorem calls_append (front back : List Term) (start : List α × σ) :
    calls alg (front ++ back) start = (calls alg front start).bind (calls alg back) :=
  List.foldlM_append

theorem calls_single (node : Term) (start : List α × σ) :
    calls alg [node] start = call alg node start := by
  simp [calls]

/-- In post-order the nodes of a term leave its value behind, on top of what was there. -/
theorem calls_postOrder {t : Term} (whole : t.HoleFree) (values : List α) (s : σ) :
    calls alg (t.nodesAt t.postOrder) (values, s) =
      some ((bottomUp alg t whole s).1 :: values, (bottomUp alg t whole s).2) := by
  induction t generalizing values s with
  | hole => exact whole.elim
  | var name id renamed => rfl
  | abs name id body ih =>
      have wholeBody : body.HoleFree := whole
      rw [postOrder, nodesAt_append, nodesAt_body, nodesAt_root, calls_append, ih wholeBody,
        Option.bind_some, calls_single]
      rfl
  | app fn arg ihf iha =>
      rw [postOrder, nodesAt_append, nodesAt_append, nodesAt_fn, nodesAt_arg, nodesAt_root,
        calls_append, calls_append, ihf whole.1, Option.bind_some, iha whole.2, Option.bind_some,
        calls_single]
      rfl

/-- A fold that stops has come to the nodes to the left of the first obstacle. -/
theorem within_of_firstObstacle (found : FirstObstacle room t q e) (values : List α) (s : σ) :
    ∃ values' s', calls alg (t.nodesAt (t.placesLeftOf q)) (values, s) = some (values', s') ∧
      within alg t room s = (.error e, s') := by
  -- On the room, for any stack, since an argument begins with the values of what is left of it.
  induction room generalizing t q values s with
  | zero =>
      rcases found.obstacle with ⟨_, near⟩ | ⟨_, far⟩
      · exact absurd near (Nat.not_lt_zero _)
      · cases List.length_eq_zero_iff.mp far
        rw [placesLeftOf_root, within_zero]
        exact ⟨values, s, rfl, rfl⟩
  | succ room ih =>
      cases t with
      | hole =>
          obtain ⟨rfl, rfl⟩ := obstacle_hole found.obstacle
          exact ⟨values, s, rfl, rfl⟩
      | var name id renamed => exact absurd found.obstacle not_obstacle_var
      | abs name id body =>
          obtain ⟨q, rfl, _⟩ := obstacle_abs found.obstacle
          obtain ⟨values', s', called, inside⟩ := ih (found.below fun _ => rfl) values s
          rw [placesLeftOf_body, nodesAt_body, within_abs, inside]
          exact ⟨values', s', called, rfl⟩
      | app fn arg =>
          rcases obstacle_app found.obstacle with ⟨q, rfl, _⟩ | ⟨q, rfl, _⟩
          · obtain ⟨values', s', called, inside⟩ := ih (found.below fun _ => rfl) values s
            rw [placesLeftOf_fn, nodesAt_fn, within_app, inside]
            exact ⟨values', s', called, rfl⟩
          · -- The function has been folded to the end; its value waits below those of the argument.
            obtain ⟨whole, low⟩ := found.fits_fn
            obtain ⟨values', s', called, inside⟩ := ih (found.below fun _ => rfl)
              ((bottomUp alg fn whole s).1 :: values) (bottomUp alg fn whole s).2
            rw [placesLeftOf_arg, nodesAt_append, nodesAt_fn, nodesAt_arg, calls_append,
              calls_postOrder alg whole, within_app, within_eq_ok alg whole low, andThen, inside]
            exact ⟨values', s', called, rfl⟩

/-! ## Visitors -/

/-- Passes every node to `visit`. -/
def visitor (visit : Term → σ → σ) : Algebra σ Unit where
  var := fun name id renamed s => ((), visit (.var name id renamed) s)
  abs := fun name id body _ s => ((), visit (.abs name id body) s)
  app := fun fn arg _ _ s => ((), visit (.app fn arg) s)

theorem call_visitor {visit : Term → σ → σ} {node : Term} {values values' : List Unit} {s s' : σ}
    (called : call (visitor visit) node (values, s) = some (values', s')) : s' = visit node s := by
  cases node with
  | hole => cases called
  | var name id renamed =>
      cases called
      rfl
  | abs name id body =>
      rcases values with _ | ⟨inner, values⟩ <;> cases called
      rfl
  | app fn arg =>
      rcases values with _ | ⟨right, _ | ⟨left, values⟩⟩ <;> cases called
      rfl

theorem calls_visitor {visit : Term → σ → σ} {nodes : List Term} {values values' : List Unit}
    {s s' : σ} (called : calls (visitor visit) nodes (values, s) = some (values', s')) :
    s' = nodes.foldl (fun s node => visit node s) s := by
  induction nodes generalizing values s with
  | nil =>
      cases called
      rfl
  | cons node nodes ih =>
      obtain ⟨⟨values₁, s₁⟩, here, later⟩ := Option.bind_eq_some_iff.mp called
      rw [List.foldl_cons, ← call_visitor here]
      exact ih later

/-- Keeping the nodes that are wanted, the last one in front. -/
theorem foldl_wanted (wanted : Term → Bool) (nodes seen : List Term) :
    nodes.foldl (fun seen node => if wanted node then node :: seen else seen) seen =
      (nodes.filter wanted).reverse ++ seen := by
  induction nodes generalizing seen with
  | nil => rfl
  | cons node nodes ih =>
      rw [List.foldl_cons, ih]
      cases kept : wanted node <;> simp [kept]

end

end Fold

/-- A fold does its work at the nodes at these places, one after the other, and ends so.  A
traversal visits these nodes, as far as they are wanted. -/
structure Visits (t : Term) (places : List Path) (result : Except WalkError Unit) : Prop where
  fold : ∀ {σ α : Type} (alg : Fold.Algebra σ α) (s : σ),
    (t.fold alg s).1.map (fun _ => ()) = result ∧
    ∃ values, Fold.calls alg (t.nodesAt places) ([], s) = some (values, (t.fold alg s).2)
  visit : ∀ {σ : Type} (visit : Term → σ → σ) (s : σ),
    t.fold (Fold.visitor visit) s = (result, (t.nodesAt places).foldl (fun s n => visit n s) s)
  traverse : ∀ wanted, t.traverse wanted = ((t.nodesAt places).filter wanted, result)

namespace Visits

variable {t : Term} {places : List Path} {result : Except WalkError Unit}

/-- What is visited follows from the work that is done. -/
theorem of_fold (fold : ∀ {σ α : Type} (alg : Fold.Algebra σ α) (s : σ),
    (t.fold alg s).1.map (fun _ => ()) = result ∧
    ∃ values, Fold.calls alg (t.nodesAt places) ([], s) = some (values, (t.fold alg s).2)) :
    t.Visits places result := by
  have visit : ∀ {σ : Type} (visit : Term → σ → σ) (s : σ), t.fold (Fold.visitor visit) s =
      (result, (t.nodesAt places).foldl (fun s n => visit n s) s) := by
    intro σ visit s
    obtain ⟨ended, values, called⟩ := fold (Fold.visitor visit) s
    have same : (t.fold (Fold.visitor visit) s).1 = result := by
      rw [← ended]
      cases (t.fold (Fold.visitor visit) s).1 <;> rfl
    rw [← Fold.calls_visitor called, ← same]
  -- A traversal is the visitor that keeps what is wanted.
  refine ⟨fold, visit, fun wanted => ?_⟩
  have walked : t.fold (Fold.visiting wanted) [] = _ :=
    visit (fun node seen => if wanted node then node :: seen else seen) []
  rw [Fold.foldl_wanted, List.append_nil] at walked
  rw [Term.traverse, walked]
  simp

end Visits

variable {t : Term}

theorem fold_of_fits (fits : t.Fits Fold.maxDepth) : ∃ whole : t.HoleFree,
    (∀ {σ α : Type} (alg : Fold.Algebra σ α) (s : σ), t.fold alg s =
      (.ok (Fold.bottomUp alg t whole s).1, (Fold.bottomUp alg t whole s).2)) ∧
    t.Visits t.postOrder (.ok ()) := by
  obtain ⟨whole, low⟩ := fits_iff.mp fits
  have folded : ∀ {σ α : Type} (alg : Fold.Algebra σ α) (s : σ), t.fold alg s =
      (.ok (Fold.bottomUp alg t whole s).1, (Fold.bottomUp alg t whole s).2) :=
    fun alg s => Fold.within_eq_ok alg whole (Nat.lt_succ_of_le low) s
  refine ⟨whole, folded, .of_fold fun alg s => ?_⟩
  rw [folded]
  exact ⟨rfl, _, Fold.calls_postOrder alg whole [] s⟩

theorem fold_of_not_fits (unfit : ¬ t.Fits Fold.maxDepth) :
    ∃ q e, Fold.FirstObstacle (Fold.maxDepth + 1) t q e ∧
      t.placesLeftOf q <+: t.postOrder ∧ t.Visits (t.placesLeftOf q) (.error e) := by
  have notLow : ¬ (t.HoleFree ∧ t.height < Fold.maxDepth + 1) := fun ⟨whole, low⟩ =>
    unfit (fits_iff.mpr ⟨whole, Nat.le_of_lt_succ low⟩)
  obtain ⟨q, e, found⟩ := Fold.exists_firstObstacle notLow
  obtain ⟨u, place⟩ := found.obstacle.exists_at?
  refine ⟨q, e, found, placesLeftOf_isPrefix place, .of_fold fun alg s => ?_⟩
  obtain ⟨values, s', called, stopped⟩ := Fold.within_of_firstObstacle alg found [] s
  have folded : t.fold alg s = (.error e, s') := stopped
  rw [folded]
  exact ⟨rfl, values, called⟩

theorem exists_fold_eq_ok_iff {σ α : Type} (alg : Fold.Algebra σ α) (s : σ) :
    (∃ value s', t.fold alg s = (.ok value, s')) ↔ t.Fits Fold.maxDepth := by
  constructor
  · rintro ⟨value, s', folded⟩
    refine Classical.byContradiction fun unfit => ?_
    obtain ⟨q, e, _, _, visits⟩ := fold_of_not_fits unfit
    have ended := (visits.fold alg s).1
    rw [folded] at ended
    cases ended
  · intro fits
    obtain ⟨whole, folded, _⟩ := fold_of_fits fits
    exact ⟨_, _, folded alg s⟩

theorem traverse_isPrefix (wanted : Term → Bool) (t : Term) :
    (t.traverse wanted).1 <+: (t.nodesAt t.postOrder).filter wanted := by
  by_cases fits : t.Fits Fold.maxDepth
  · obtain ⟨_, _, visits⟩ := fold_of_fits fits
    have all : (t.traverse wanted).1 = (t.nodesAt t.postOrder).filter wanted :=
      congrArg Prod.fst (visits.traverse wanted)
    exact all ▸ List.prefix_rfl
  · obtain ⟨q, e, _, front, visits⟩ := fold_of_not_fits fits
    rw [visits.traverse]
    exact (front.filterMap _).filter _

/-- A fold comes to the root exactly if there is a node everywhere and none of them is deeper than
a thousand.  Then it is the fold without a bound, and goes through all nodes in post-order, each
once.  Otherwise it ends with the error of the first obstacle, and has gone through the nodes to
the left of that, with which the post-order begins.  A traversal visits the nodes that a fold goes
through, as far as they are wanted. -/
theorem fold_exact (t : Term) :
    ((∀ p, p ∈ t.postOrder ↔ ∃ node, t.at? p = some node ∧ node ≠ hole) ∧
      t.postOrder.Nodup ∧ t.postOrder.Pairwise Path.Before) ∧
    (∀ {σ α : Type} (alg : Fold.Algebra σ α) (s : σ),
      (∃ value s', t.fold alg s = (.ok value, s')) ↔ t.Fits 1000) ∧
    (t.Fits 1000 → ∃ whole : t.HoleFree,
      (∀ {σ α : Type} (alg : Fold.Algebra σ α) (s : σ), t.fold alg s =
        (.ok (Fold.bottomUp alg t whole s).1, (Fold.bottomUp alg t whole s).2)) ∧
      t.Visits t.postOrder (.ok ())) ∧
    (¬ t.Fits 1000 → ∃ q e, Fold.FirstObstacle 1001 t q e ∧
      t.placesLeftOf q <+: t.postOrder ∧ t.Visits (t.placesLeftOf q) (.error e)) ∧
    ∀ wanted, (t.traverse wanted).1 <+: (t.nodesAt t.postOrder).filter wanted :=
  ⟨⟨fun _ => mem_postOrder, t.nodup_postOrder, t.pairwise_postOrder⟩, exists_fold_eq_ok_iff,
    fold_of_fits, fold_of_not_fits, fun wanted => traverse_isPrefix wanted t⟩

/-- `(λx. x) a (◦ b)`, where `◦` is a hole. -/
def aroundHole : Term :=
  app (app (abs "x" 1 (var "x" 1 false)) (var "a" 0 false)) (app hole (var "b" 0 false))

/-- So many abstractions, one below the other, around a variable. -/
def tower : Nat → Term
  | 0 => var "x" 0 false
  | n + 1 => abs "x" (n + 1) (tower n)

theorem fits_tower {depth n : Nat} : (tower n).Fits depth ↔ n ≤ depth := by
  have whole : (tower n).HoleFree := by
    induction n with
    | zero => trivial
    | succ n ih => exact ih
  have high : (tower n).height = n := by
    induction n with
    | zero => rfl
    | succ n ih => exact congrArg Nat.succ (ih whole)
  rw [fits_iff, high, and_iff_right whole]

/-- What is to the left of the hole is visited, and `b` is not.  A thousand abstractions can be
counted, and one more cannot. -/
theorem fold_exact_hole :
    ¬ aroundHole.Fits 1000 ∧
    aroundHole.traverse (fun _ => true) =
      ([var "x" 1 false, abs "x" 1 (var "x" 1 false), var "a" 0 false,
        app (abs "x" 1 (var "x" 1 false)) (var "a" 0 false)], .error .hole) ∧
    (tower 1000).Fits 1000 ∧
    ((tower 1000).traverse fun _ => true).2 = .ok () ∧
    ∃ e, ((tower 1001).traverse fun _ => true).2 = .error e := by
  have absent : aroundHole.at? [.arg, .fn] = some hole := rfl
  have unfit : ¬ aroundHole.Fits 1000 := fun fits => fits.whole _ absent
  obtain ⟨_, _, _, stops, _⟩ := fold_exact aroundHole
  obtain ⟨q, e, found, _, visits⟩ := stops unfit
  have place : [.arg, .fn] = q := by
    rcases found.first _ _ (.hole absent (by decide)) with same | left
    · exact same
    · rcases Path.leftOf_cons_iff.mp left with ⟨p, rfl, inside⟩ | ⟨_, p, rfl⟩
      · simp [Path.leftOf_cons_iff] at inside
      · have inFn : Fold.Obstacle 1000
            (app (abs "x" 1 (var "x" 1 false)) (var "a" 0 false)) p e :=
          (Fold.obstacle_cons_iff rfl).mp found.obstacle
        exact absurd inFn (Fold.not_obstacle (by decide) (by decide))
  subst place
  have cause : e = .hole := by
    rcases found.obstacle with _ | ⟨_, far⟩
    · rfl
    · cases far
  obtain ⟨_, _, success, _, _⟩ := fold_exact (tower 1000)
  obtain ⟨_, _, all⟩ := success (fits_tower.mpr (Nat.le_refl _))
  obtain ⟨_, _, _, stops, _⟩ := fold_exact (tower 1001)
  obtain ⟨_, e, _, _, none⟩ := stops fun fits => absurd (fits_tower.mp fits) (by decide)
  refine ⟨unfit, ?_, fits_tower.mpr (Nat.le_refl _), ?_, e, ?_⟩
  · rw [visits.traverse, cause]
    rfl
  · rw [all.traverse]
  · rw [none.traverse]

end UntypedLambda.Term
