import UntypedLambda.Proofs.Term.Reading

/-! # Owners

The binder that a variable belongs to, said by its place: numbers may come twice on the way down
to a variable, and then only places tell the binders apart.  Renaming a binder moves the
variables that it owns and leaves every other node where and what it was, so that each variable
keeps its owner.

Main statements: `at?_renameBound`, what a renaming leaves at every path, and
`rename_keeps_owners`. -/
set_option autoImplicit false

namespace UntypedLambda.Term

/-! ## Nodes -/

/-- The node at the root, without what is below it. -/
def bare : Term → Term
  | hole => hole
  | var name id renamed => var name id renamed
  | abs name id _ => abs name id hole
  | app _ _ => app hole hole

/-- The node at a path, without what is below it. -/
def nodeAt? (p : Path) (t : Term) : Option Term := (t.at? p).map bare

theorem nodeAt?_eq_var {p : Path} {t : Term} {name : String} {id : Int} {renamed : Bool} :
    t.nodeAt? p = some (var name id renamed) ↔ t.at? p = some (var name id renamed) := by
  unfold nodeAt?
  cases t.at? p with
  | none => simp
  | some u => cases u <;> simp [bare]

/-! ## The owner of a variable -/

/-- The path of the innermost binder with the number `id` that is passed on the way down. -/
def nearest (id : Int) : Path → Term → Option Path
  | .body :: p, abs _ i body =>
    match nearest id p body with
    | some q => some (.body :: q)
    | none => if i = id then some [] else none
  | .fn :: p, app fn _ => (nearest id p fn).map (.fn :: ·)
  | .arg :: p, app _ arg => (nearest id p arg).map (.arg :: ·)
  | _, _ => none

/-- The path of the binder that owns the variable at a path.  Nothing owns a free variable. -/
def owner? (p : Path) (t : Term) : Option Path :=
  match t.nodeAt? p with
  | some (var _ id _) => if id = 0 then none else nearest id p t
  | _ => none

/-- The binder itself is the one that is found among those around the variable. -/
theorem ownerOf_enclosing {id : Int} (bound : id ≠ 0) (p : Path) (t : Term) (above : List Term) :
    ownerOf id (enclosing above p t) =
      match nearest id p t with
      | some q => t.at? q
      | none => ownerOf id above := by
  induction p generalizing t above with
  | nil => rfl
  | cons step p ih =>
      cases t with
      | hole => cases step <;> rfl
      | var name i renamed => cases step <;> rfl
      | app fn arg =>
          cases step with
          | body => rfl
          | fn =>
              simp only [enclosing, nearest, ih fn above]
              cases nearest id p fn <;> rfl
          | arg =>
              simp only [enclosing, nearest, ih arg above]
              cases nearest id p arg <;> rfl
      | abs name i body =>
          cases step with
          | body =>
              simp only [enclosing, nearest, ih body (abs name i body :: above)]
              cases nearest id p body with
              | some q => rfl
              | none =>
                  by_cases own : i = id <;> simp [ownerOf, bound, own, at?]
          | fn => rfl
          | arg => rfl

/-- The abstraction that a variable belongs to stands at the path of its owner. -/
theorem ownerOf_of_at? {p : Path} {t : Term} {name : String} {id : Int} {renamed : Bool}
    (found : t.at? p = some (var name id renamed)) :
    ownerOf id (enclosing [] p t) = (t.owner? p).bind (t.at? ·) := by
  rw [owner?, nodeAt?_eq_var.mpr found]
  by_cases free : id = 0
  · subst free
    rfl
  · have nothing : ownerOf id [] = none := if_neg free
    simp only [ownerOf_enclosing free, if_neg free, nothing]
    cases nearest id p t <;> rfl

/-! ## Numbers and paths -/

theorem mem_labels_of_at? {p : Path} {t : Term} {name : String} {id : Int} {renamed : Bool}
    (found : t.at? p = some (var name id renamed)) : (name, id) ∈ t.labels := by
  induction p generalizing t with
  | nil =>
      cases found
      exact List.mem_cons_self
  | cons step p ih =>
      cases step <;> cases t <;> simp only [at?, reduceCtorEq] at found
      · exact List.mem_cons_of_mem _ (ih found)
      · exact List.mem_append_left _ (ih found)
      · exact List.mem_append_right _ (ih found)

/-- No binder is found with a number that is not in use. -/
theorem nearest_of_fresh {id : Int} {t : Term} (fresh : ∀ l ∈ t.labels, l.2 ≠ id) (p : Path) :
    nearest id p t = none := by
  induction p generalizing t with
  | nil => rfl
  | cons step p ih =>
      cases t with
      | hole => cases step <;> rfl
      | var name i renamed => cases step <;> rfl
      | app fn arg =>
          cases step with
          | body => rfl
          | fn => rw [nearest, ih fun l member => fresh l (List.mem_append_left _ member)]; rfl
          | arg => rw [nearest, ih fun l member => fresh l (List.mem_append_right _ member)]; rfl
      | abs name i body =>
          cases step with
          | body =>
              have other : i ≠ id := fresh (name, i) List.mem_cons_self
              rw [nearest, ih fun l member => fresh l (List.mem_cons_of_mem _ member), if_neg other]
          | fn => rfl
          | arg => rfl

theorem nearest_body_eq_none {id i : Int} {p : Path} {name : String} {body : Term} :
    nearest id (.body :: p) (abs name i body) = none ↔ nearest id p body = none ∧ i ≠ id := by
  rw [nearest]
  cases nearest id p body with
  | some q => simp
  | none => by_cases own : i = id <;> simp [own]

/-! ## What a renaming leaves at a path -/

section
variable (old : Int) (name : String) (id : Int)

/-- The renaming goes on below a path unless an inner binder with the old number has been
passed. -/
theorem at?_renameBound (p : Path) (t : Term) :
    (t.renameBound old name id).at? p = (t.at? p).map fun u =>
      if nearest old p t = none then u.renameBound old name id else u := by
  induction p generalizing t with
  | nil => rfl
  | cons step p ih =>
      cases t with
      | hole => cases step <;> rfl
      | var n i renamed =>
          simp only [renameBound]
          split <;> cases step <;> rfl
      | app fn arg =>
          cases step with
          | body => rfl
          | fn => simpa only [renameBound, at?, nearest, Option.map_eq_none_iff] using ih fn
          | arg => simpa only [renameBound, at?, nearest, Option.map_eq_none_iff] using ih arg
      | abs n i body =>
          cases step with
          | body =>
              simp only [nearest_body_eq_none, renameBound]
              by_cases inner : i = old
              · simp [inner, at?]
              · simpa [inner, at?] using ih body
          | fn =>
              simp only [renameBound]
              split <;> rfl
          | arg =>
              simp only [renameBound]
              split <;> rfl

/-- Binders below the root keep their numbers. -/
theorem nearest_renameBound (k : Int) (p : Path) (t : Term) :
    nearest k p (t.renameBound old name id) = nearest k p t := by
  induction p generalizing t with
  | nil => cases t <;> rfl
  | cons step p ih =>
      cases t with
      | hole => rfl
      | var n i renamed =>
          simp only [renameBound]
          split <;> cases step <;> rfl
      | app fn arg =>
          cases step with
          | body => rfl
          | fn => rw [renameBound, nearest, nearest, ih]
          | arg => rw [renameBound, nearest, nearest, ih]
      | abs n i body =>
          simp only [renameBound]
          split
          · rfl
          · cases step with
            | body => simp only [nearest, ih]
            | fn => rfl
            | arg => rfl

end

/-- A variable with another name and number. -/
def relabel (name : String) (id : Int) : Term → Term
  | var _ _ renamed => var name id renamed
  | t => t

theorem bare_renameBound_of_ne_var {old id : Int} {name : String} {t : Term}
    (notVar : ∀ x r, t ≠ var x old r) : (t.renameBound old name id).bare = t.bare := by
  cases t with
  | hole => rfl
  | var x i r =>
      have other : i ≠ old := fun same => notVar x r (by rw [same])
      rw [renameBound, if_neg other]
  | abs x i body =>
      rw [renameBound]
      split <;> rfl
  | app fn arg => rfl

/-! ## The binder at the root -/

section Root
variable {n name : String} {old id : Int} {body : Term}

/-- What the root owns are the variables with its number that no inner binder has taken. -/
theorem owner?_eq_root_iff (isBinder : old ≠ 0) {p : Path} :
    (abs n old body).owner? p = some [] ↔ ∃ q x r, p = .body :: q ∧
      body.at? q = some (var x old r) ∧ nearest old q body = none := by
  constructor
  · intro owned
    unfold owner? at owned
    split at owned
    · rename_i x i r found
      rw [nodeAt?_eq_var] at found
      split at owned
      · cases owned
      · rcases p with _ | ⟨_ | _ | _, q⟩ <;>
          simp only [at?, reduceCtorEq, Option.some.injEq] at found
        rw [nearest] at owned
        cases inner : nearest i q body with
        | some q' => simp [inner] at owned
        | none =>
            by_cases same : old = i
            · subst same
              exact ⟨q, x, r, rfl, found, inner⟩
            · simp [inner, same] at owned
    · cases owned
  · rintro ⟨q, x, r, rfl, found, inner⟩
    have node : (abs n old body).nodeAt? (.body :: q) = some (var x old r) :=
      nodeAt?_eq_var.mpr found
    simp [owner?, node, isBinder, nearest, inner]

theorem nodeAt?_rename (isBinder : old ≠ 0) (p : Path) :
    ((abs n old body).rename name id).nodeAt? p =
      if p = [] then some (abs name id hole)
      else if (abs n old body).owner? p = some [] then
        ((abs n old body).nodeAt? p).map (relabel name id)
      else (abs n old body).nodeAt? p := by
  rcases p with _ | ⟨_ | _ | _, q⟩
  · rfl
  · have left : ((abs n old body).rename name id).at? (.body :: q) = _ :=
      at?_renameBound old name id q body
    rw [if_neg (List.cons_ne_nil _ _), nodeAt?, left, Option.map_map]
    by_cases owned : (abs n old body).owner? (.body :: q) = some []
    · obtain ⟨q', x, r, same, found, inner⟩ := (owner?_eq_root_iff isBinder).mp owned
      cases same
      simp [owned, nodeAt?, at?, found, inner, renameBound, bare, relabel]
    · rw [if_neg owned, nodeAt?, at?]
      refine Option.map_congr fun u found => ?_
      simp only [Function.comp_apply]
      split
      · rename_i inner
        refine bare_renameBound_of_ne_var fun x r same => owned ?_
        exact (owner?_eq_root_iff isBinder).mpr ⟨q, x, r, rfl, by rw [found, same], inner⟩
      · rfl
  · rfl
  · rfl

variable (fresh : ∀ l ∈ body.labels, l.2 ≠ id)
include fresh

theorem owner?_rename (isBinder : old ≠ 0) (isNumber : id ≠ 0) (p : Path) :
    ((abs n old body).rename name id).owner? p = (abs n old body).owner? p := by
  by_cases owned : (abs n old body).owner? p = some []
  · obtain ⟨q, x, r, rfl, found, inner⟩ := (owner?_eq_root_iff isBinder).mp owned
    have node : (abs n old body).nodeAt? (.body :: q) = some (var x old r) :=
      nodeAt?_eq_var.mpr found
    have moved := @nodeAt?_rename n name old id body isBinder (.body :: q)
    rw [if_neg (List.cons_ne_nil _ _), if_pos owned, node] at moved
    rw [owned, owner?, moved]
    simp [relabel, isNumber, rename, nearest, nearest_renameBound, nearest_of_fresh fresh]
  · have kept := @nodeAt?_rename n name old id body isBinder p
    rw [if_neg owned] at kept
    rcases p with _ | ⟨_ | _ | _, q⟩
    · rfl
    · rw [if_neg (List.cons_ne_nil _ _)] at kept
      unfold owner?
      rw [kept]
      split
      · rename_i x i r node
        have found : body.at? q = some (var x i r) := nodeAt?_eq_var.mp node
        have notNew : id ≠ i := (fresh (x, i) (mem_labels_of_at? found)).symm
        rw [rename, nearest, nearest, nearest_renameBound, if_neg notNew]
        cases inner : nearest i q body with
        | some q' => rfl
        | none =>
            have notOld : old ≠ i := by
              rintro rfl
              exact owned ((owner?_eq_root_iff isBinder).mpr ⟨q, x, r, rfl, found, inner⟩)
            rw [if_neg notOld]
      · rfl
    · rfl
    · rfl

/-- The new number is borne by what the root owns, and by nothing else below it. -/
theorem at?_rename_eq_var_iff (isBinder : old ≠ 0) {p : Path} :
    (∃ x r, ((abs n old body).rename name id).at? p = some (var x id r)) ↔
      (abs n old body).owner? p = some [] := by
  have node := @nodeAt?_rename n name old id body isBinder p
  simp only [← nodeAt?_eq_var, node]
  constructor
  · rintro ⟨x, r, borne⟩
    by_cases owned : (abs n old body).owner? p = some []
    · exact owned
    · rw [if_neg owned] at borne
      split at borne
      · cases borne
      · rw [nodeAt?_eq_var] at borne
        rcases p with _ | ⟨_ | _ | _, q⟩ <;>
          simp only [at?, reduceCtorEq, Option.some.injEq] at borne
        exact absurd rfl (fresh (x, id) (mem_labels_of_at? borne))
  · intro owned
    obtain ⟨q, x, r, rfl, found, _⟩ := (owner?_eq_root_iff isBinder).mp owned
    have before : (abs n old body).nodeAt? (.body :: q) = some (var x old r) :=
      nodeAt?_eq_var.mpr found
    exact ⟨name, r, by simp [owned, before, relabel]⟩

omit fresh in
/-- An inner binder with the old number keeps all that is below it. -/
theorem at?_rename_of_inner {p : Path} {m : String} (below : p ≠ [])
    (inner : (abs n old body).binderAt? p = some (m, old)) :
    ((abs n old body).rename name id).at? p = (abs n old body).at? p := by
  rcases p with _ | ⟨_ | _ | _, q⟩
  · exact absurd rfl below
  · rw [binderAt?_body] at inner
    have left : ((abs n old body).rename name id).at? (.body :: q) = _ :=
      at?_renameBound old name id q body
    rw [left, at?]
    unfold binderAt? at inner
    split at inner
    · rename_i x i rest found
      cases inner
      simp [found, renameBound]
    · cases inner
  · rfl
  · rfl

end Root

/-- A binder is given a name, and a number that is not in use below it.  The reading by numbers
stays what it was, below whatever binders the term stands, and every variable keeps its owner: the
abstraction that is found for it stands where the one did that it belonged to.
The root and the variables that it owned have the new name and number, and all other nodes are as
before; nothing else has the new number.  Inner binders that share the old number keep what is
below them. -/
theorem rename_keeps_owners (n : String) {old : Int} (body : Term) (isBinder : old ≠ 0)
    (name : String) {id : Int} (isNumber : id ≠ 0) (fresh : ∀ l ∈ body.labels, l.2 ≠ id) :
    let t := abs n old body
    let u := t.rename name id
    (∀ scope, u.idReading scope = t.idReading scope) ∧
    (∀ p, u.owner? p = t.owner? p) ∧
    (∀ p x i r, u.at? p = some (var x i r) →
      ownerOf i (enclosing [] p u) = (t.owner? p).bind (u.at? ·)) ∧
    (∀ p, u.nodeAt? p =
      if p = [] then some (abs name id hole)
      else if t.owner? p = some [] then (t.nodeAt? p).map (relabel name id)
      else t.nodeAt? p) ∧
    (∀ p, (∃ x r, u.at? p = some (var x id r)) ↔ t.owner? p = some []) ∧
    ∀ p m, p ≠ [] → t.binderAt? p = some (m, old) → u.at? p = t.at? p := by
  intro t u
  refine ⟨?reading, owner?_rename fresh isBinder isNumber, ?owners, nodeAt?_rename isBinder,
    fun _ => at?_rename_eq_var_iff fresh isBinder, fun _ _ => at?_rename_of_inner⟩
  case reading =>
    intro scope
    have below : (body.renameBound old name id).idReading (id :: scope) =
        body.idReading (old :: scope) := by
      apply idReading_renameBound body _ _ fresh
      · intro l member other
        rw [idPlace_cons_of_ne (fresh l member).symm, idPlace_cons_of_ne (Ne.symm other)]
      · intro m
        rw [idPlace_cons_self isNumber, idPlace_cons_self isBinder]
    exact congrArg Nameless.abs below
  case owners =>
    intro p x i r found
    rw [ownerOf_of_at? found, owner?_rename fresh isBinder isNumber]

/-- `λx. x (λx. x) (λz. x y)`, where both binders `x` have the number one and `y` belongs further
out.  The first `x` and the last one move, and the one between them stays. -/
theorem rename_keeps_owners_shadowed :
    (∀ l ∈ (app (app (var "x" 1 false) (abs "x" 1 (var "x" 1 false)))
        (abs "z" 0 (app (var "x" 1 false) (var "y" 2 false)))).labels, l.2 ≠ -1) ∧
    (rename "X0" (-1) (abs "x" 1 (app (app (var "x" 1 false) (abs "x" 1 (var "x" 1 false)))
        (abs "z" 0 (app (var "x" 1 false) (var "y" 2 false)))))).idReading [2] =
      .abs (.app (.app (.bound 0) (.abs (.bound 0))) (.abs (.app (.bound 1) (.bound 2)))) ∧
    (rename "X0" (-1) (abs "x" 1 (app (app (var "x" 1 false) (abs "x" 1 (var "x" 1 false)))
        (abs "z" 0 (app (var "x" 1 false) (var "y" 2 false)))))).owner?
          [.body, .fn, .arg, .body] = some [.body, .fn, .arg] ∧
    (rename "X0" (-1) (abs "x" 1 (app (app (var "x" 1 false) (abs "x" 1 (var "x" 1 false)))
        (abs "z" 0 (app (var "x" 1 false) (var "y" 2 false)))))).nodeAt?
          [.body, .arg, .body, .fn] = some (var "X0" (-1) false) := by
  have fresh : ∀ l ∈ (app (app (var "x" 1 false) (abs "x" 1 (var "x" 1 false)))
      (abs "z" 0 (app (var "x" 1 false) (var "y" 2 false)))).labels, l.2 ≠ -1 := by decide
  obtain ⟨reading, owners, _, nodes, _⟩ :=
    rename_keeps_owners "x" _ (show (1 : Int) ≠ 0 by decide) "X0" (by decide) fresh
  exact ⟨fresh, reading [2], owners _, nodes _⟩

end UntypedLambda.Term
