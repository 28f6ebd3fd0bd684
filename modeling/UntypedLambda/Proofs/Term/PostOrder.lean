import UntypedLambda.Proofs.Term.Labels

/-! # Places in order

From left to right, and in post-order, where a node comes after all that is below it.

Main statements: `mem_postOrder` and `pairwise_postOrder`, which say that `postOrder` lists the
places of all nodes in this order, and `placesLeftOf_isPrefix`. -/
set_option autoImplicit false

namespace UntypedLambda

/-! ## Left and right -/

/-- The first path turns to the left of the second at an application that both pass. -/
def Path.LeftOf : Path → Path → Prop
  | .fn :: _, .arg :: _ => True
  | step :: p, step' :: q => step = step' ∧ LeftOf p q
  | _, _ => False

namespace Path

instance instDecidableLeftOf : (p q : Path) → Decidable (LeftOf p q)
  | [], q => isFalse (by cases q <;> exact id)
  | step :: _, [] => isFalse (by cases step <;> exact id)
  | .fn :: _, .arg :: _ => isTrue trivial
  | .fn :: p, .fn :: q => @instDecidableAnd _ _ _ (instDecidableLeftOf p q)
  | .fn :: p, .body :: q => @instDecidableAnd _ _ _ (instDecidableLeftOf p q)
  | .arg :: p, step :: q => @instDecidableAnd _ _ _ (instDecidableLeftOf p q)
  | .body :: p, step :: q => @instDecidableAnd _ _ _ (instDecidableLeftOf p q)

variable {p q : Path}

@[simp] theorem not_leftOf_nil : ¬ LeftOf p [] := by
  rcases p with _ | ⟨_ | _ | _, p⟩ <;> exact id

@[simp] theorem not_nil_leftOf : ¬ LeftOf [] q := by
  rcases q with _ | ⟨_ | _ | _, q⟩ <;> exact id

@[simp] theorem cons_leftOf_cons (step : Step) : LeftOf (step :: p) (step :: q) ↔ LeftOf p q := by
  cases step <;> simp [LeftOf]

@[simp] theorem fn_leftOf_arg : LeftOf (.fn :: p) (.arg :: q) := trivial

@[simp] theorem not_arg_leftOf_fn : ¬ LeftOf (.arg :: p) (.fn :: q) := by
  simp [LeftOf]

theorem cons_leftOf_iff {step : Step} {r : Path} : LeftOf (step :: q) r ↔
    (∃ p, r = step :: p ∧ LeftOf q p) ∨ step = .fn ∧ ∃ p, r = .arg :: p := by
  rcases r with _ | ⟨step', p⟩
  · simp
  · cases step <;> cases step' <;> simp [LeftOf]

theorem leftOf_cons_iff {step : Step} {r : Path} : LeftOf r (step :: q) ↔
    (∃ p, r = step :: p ∧ LeftOf p q) ∨ step = .arg ∧ ∃ p, r = .fn :: p := by
  rcases r with _ | ⟨step', p⟩
  · simp
  · cases step <;> cases step' <;> simp [LeftOf]

theorem not_leftOf_self (p : Path) : ¬ LeftOf p p := by
  induction p with
  | nil => exact not_leftOf_nil
  | cons step p ih => rwa [cons_leftOf_cons]

/-! ## Post-order -/

/-- The first path leads to a place below that of the second, or further to the left. -/
def Before (p q : Path) : Prop := q <+: p ∧ p ≠ q ∨ LeftOf p q

theorem Before.ne (before : Before p q) : p ≠ q := by
  rintro rfl
  rcases before with ⟨_, other⟩ | left
  · exact other rfl
  · exact not_leftOf_self p left

theorem Before.cons (step : Step) (before : Before p q) : Before (step :: p) (step :: q) := by
  rcases before with ⟨below, other⟩ | left
  · exact Or.inl ⟨List.cons_prefix_cons.mpr ⟨rfl, below⟩, by simpa using other⟩
  · exact Or.inr ((cons_leftOf_cons step).mpr left)

theorem cons_before_nil (step : Step) (p : Path) : Before (step :: p) [] :=
  Or.inl ⟨List.nil_prefix, List.cons_ne_nil step p⟩

theorem fn_before_arg : Before (.fn :: p) (.arg :: q) := Or.inr fn_leftOf_arg

theorem pairwise_below {ps : List Path} (sorted : ps.Pairwise Before) (step : Step) :
    (ps.map (step :: ·) ++ [[]]).Pairwise Before := by
  refine List.pairwise_append.mpr
    ⟨List.pairwise_map.mpr (sorted.imp (.cons step)), List.pairwise_singleton _ _, ?_⟩
  simpa using fun p _ => cons_before_nil step p

end Path

namespace Term

/-- The places of all nodes, each after those below it and functions before arguments.  Holes are
no nodes. -/
def postOrder : Term → List Path
  | hole => []
  | var _ _ _ => [[]]
  | abs _ _ body => body.postOrder.map (.body :: ·) ++ [[]]
  | app fn arg => fn.postOrder.map (.fn :: ·) ++ arg.postOrder.map (.arg :: ·) ++ [[]]

theorem mem_postOrder {t : Term} {p : Path} :
    p ∈ t.postOrder ↔ ∃ node, t.at? p = some node ∧ node ≠ hole := by
  induction t generalizing p with
  | hole => rcases p with _ | ⟨_ | _ | _, p⟩ <;> simp [postOrder, at?]
  | var name id renamed => rcases p with _ | ⟨_ | _ | _, p⟩ <;> simp [postOrder, at?]
  | abs name id body ih => rcases p with _ | ⟨_ | _ | _, p⟩ <;> simp [postOrder, at?, ih]
  | app fn arg ihf iha => rcases p with _ | ⟨_ | _ | _, p⟩ <;> simp [postOrder, at?, ihf, iha]

theorem pairwise_postOrder (t : Term) : t.postOrder.Pairwise Path.Before := by
  induction t with
  | hole => exact .nil
  | var name id renamed => exact List.pairwise_singleton _ _
  | abs name id body ih => exact Path.pairwise_below ih .body
  | app fn arg ihf iha =>
      -- The argument and the root are in order as below an abstraction; the function precedes both.
      rw [postOrder, List.append_assoc]
      refine List.pairwise_append.mpr
        ⟨List.pairwise_map.mpr (ihf.imp (.cons .fn)), Path.pairwise_below iha .arg, ?_⟩
      intro p below q later
      obtain ⟨p, _, rfl⟩ := List.mem_map.mp below
      rcases List.mem_append.mp later with later | root
      · obtain ⟨q, _, rfl⟩ := List.mem_map.mp later
        exact Path.fn_before_arg
      · rw [List.mem_singleton.mp root]
        exact Path.cons_before_nil .fn p

theorem nodup_postOrder (t : Term) : t.postOrder.Nodup := t.pairwise_postOrder.imp Path.Before.ne

/-- The nodes at some places, in the order of the places. -/
def nodesAt (t : Term) (places : List Path) : List Term := places.filterMap fun p => t.at? p

section
variable (name : String) (id : Int) (body fn arg : Term) (ps : List Path)

@[simp] theorem nodesAt_body :
    (abs name id body).nodesAt (ps.map (.body :: ·)) = body.nodesAt ps := by
  rw [nodesAt, List.filterMap_map]
  rfl

@[simp] theorem nodesAt_fn : (app fn arg).nodesAt (ps.map (.fn :: ·)) = fn.nodesAt ps := by
  rw [nodesAt, List.filterMap_map]
  rfl

@[simp] theorem nodesAt_arg : (app fn arg).nodesAt (ps.map (.arg :: ·)) = arg.nodesAt ps := by
  rw [nodesAt, List.filterMap_map]
  rfl

end

theorem nodesAt_append (t : Term) (ps qs : List Path) :
    t.nodesAt (ps ++ qs) = t.nodesAt ps ++ t.nodesAt qs := List.filterMap_append

theorem nodesAt_root (t : Term) : t.nodesAt [[]] = [t] := rfl

/-! ## What is left of a place -/

/-- The places of the nodes to the left of a path, in post-order. -/
def placesLeftOf (q : Path) (t : Term) : List Path := t.postOrder.filter fun p => Path.LeftOf p q

section
variable (name : String) (id : Int) (body fn arg : Term) (q : Path)

theorem placesLeftOf_body :
    (abs name id body).placesLeftOf (.body :: q) = (body.placesLeftOf q).map (.body :: ·) := by
  simp [placesLeftOf, postOrder, List.filter_map, Function.comp_def]

theorem placesLeftOf_fn :
    (app fn arg).placesLeftOf (.fn :: q) = (fn.placesLeftOf q).map (.fn :: ·) := by
  simp [placesLeftOf, postOrder, List.filter_map, Function.comp_def]

theorem placesLeftOf_arg :
    (app fn arg).placesLeftOf (.arg :: q) =
      fn.postOrder.map (.fn :: ·) ++ (arg.placesLeftOf q).map (.arg :: ·) := by
  have left : (fn.postOrder.map (Step.fn :: ·)).filter (fun p => Path.LeftOf p (.arg :: q)) =
      fn.postOrder.map (.fn :: ·) := List.filter_eq_self.mpr (by simp)
  rw [placesLeftOf, postOrder, List.filter_append, List.filter_append, left]
  simp [placesLeftOf, List.filter_map, Function.comp_def]

end

theorem placesLeftOf_root (t : Term) : t.placesLeftOf [] = [] :=
  List.filter_eq_nil_iff.mpr (by simp)

/-- A walk in post-order comes to all that is left of a place before it comes to anything else. -/
theorem placesLeftOf_isPrefix {q : Path} {t u : Term} (found : t.at? q = some u) :
    t.placesLeftOf q <+: t.postOrder := by
  induction q generalizing t with
  | nil =>
      rw [placesLeftOf_root]
      exact List.nil_prefix
  | cons step q ih =>
      cases step <;> cases t <;> simp only [at?, reduceCtorEq] at found
      case body.abs name id body =>
        rw [placesLeftOf_body, postOrder]
        exact ((ih found).map _).trans (List.prefix_append _ _)
      case fn.app fn arg =>
        rw [placesLeftOf_fn, postOrder, List.append_assoc]
        exact ((ih found).map _).trans (List.prefix_append _ _)
      case arg.app fn arg =>
        rw [placesLeftOf_arg, postOrder]
        exact ((List.prefix_append_right_inj _).mpr ((ih found).map _)).trans
          (List.prefix_append _ _)

end Term

end UntypedLambda
