import UntypedLambda.Term.Path

/-! # Labels

The label of a binder or a variable is its name with its number.  This module says which
labels a renaming or a substitution can leave, and where the binders of a term stand. -/
set_option autoImplicit false

namespace UntypedLambda

abbrev Label := String × Int

namespace Term

/-- The labels of the binders and, if `withVars` says so, of the variables, in pre-order. -/
def labelsOf (withVars : Bool) : Term → List Label
  | hole => []
  | var name id _ => if withVars then [(name, id)] else []
  | abs name id body => (name, id) :: body.labelsOf withVars
  | app fn arg => fn.labelsOf withVars ++ arg.labelsOf withVars

abbrev labels (t : Term) : List Label := t.labelsOf true

abbrev binderLabels (t : Term) : List Label := t.labelsOf false

def HoleFree : Term → Prop
  | hole => False
  | var _ _ _ => True
  | abs _ _ body => body.HoleFree
  | app fn arg => fn.HoleFree ∧ arg.HoleFree

instance instDecidableHoleFree : (t : Term) → Decidable t.HoleFree
  | hole => isFalse id
  | var _ _ _ => isTrue trivial
  | abs _ _ body => instDecidableHoleFree body
  | app fn arg => @instDecidableAnd _ _ (instDecidableHoleFree fn) (instDecidableHoleFree arg)

/-- Edges on the longest way from the root to a leaf. -/
def height : Term → Nat
  | hole => 0
  | var _ _ _ => 0
  | abs _ _ body => body.height + 1
  | app fn arg => max fn.height arg.height + 1

theorem mem_labels_of_mem_binderLabels {t : Term} {l : Label} (member : l ∈ t.binderLabels) :
    l ∈ t.labels := by
  induction t with
  | hole => exact member
  | var name id renamed => simp [labelsOf] at member
  | abs name id body ih =>
      simp only [labelsOf, List.mem_cons] at member ⊢
      exact member.imp_right ih
  | app fn arg ihf iha =>
      simp only [labelsOf, List.mem_append] at member ⊢
      exact member.imp ihf iha

theorem map_fst_labels (t : Term) : t.labels.map Prod.fst = t.nodes.filterMap ownName? := by
  induction t with
  | hole => rfl
  | var name id renamed => rfl
  | abs name id body ih => simp [labelsOf, nodes, ownName?, ih]
  | app fn arg ihf iha =>
      rw [nodes, List.filterMap_cons_none rfl, List.filterMap_append, ← ihf, ← iha]
      simp [labelsOf]

theorem mem_names {t : Term} {name : String} : name ∈ t.names ↔ ∃ l ∈ t.labels, l.1 = name := by
  rw [names, List.mem_eraseDups, ← map_fst_labels, List.mem_map]

/-! ## Substitution -/

theorem labelsOf_substitute {withVars : Bool} {id : Int} {arg t : Term} {l : Label}
    (member : l ∈ (substitute id arg t).labelsOf withVars) :
    l ∈ t.labelsOf withVars ∨ l ∈ arg.labelsOf withVars := by
  induction t with
  | hole => exact Or.inl member
  | var name i renamed =>
      simp only [substitute] at member
      split at member
      · exact Or.inr member
      · exact Or.inl member
  | abs name i body ih =>
      simp only [substitute] at member
      split at member
      · exact Or.inl member
      · simp only [labelsOf, List.mem_cons] at member ⊢
        rcases member with same | inside
        · exact Or.inl (Or.inl same)
        · exact (ih inside).imp_left Or.inr
  | app fn arg' ihf iha =>
      simp only [substitute, labelsOf, List.mem_append] at member ⊢
      rcases member with left | right
      · exact (ihf left).imp_left Or.inl
      · exact (iha right).imp_left Or.inr

theorem HoleFree.substitute {id : Int} {arg t : Term} (whole : t.HoleFree)
    (argWhole : arg.HoleFree) : (substitute id arg t).HoleFree := by
  induction t with
  | hole => exact whole
  | var name i renamed =>
      simp only [Term.substitute]
      split
      · exact argWhole
      · exact whole
  | abs name i body ih =>
      simp only [Term.substitute]
      split
      · exact whole
      · exact ih whole
  | app fn arg' ihf iha => exact ⟨ihf whole.1, iha whole.2⟩

/-! ## Renaming one binder -/

theorem labelsOf_renameBound {withVars : Bool} {old id : Int} {name : String} {t : Term}
    {l : Label} (member : l ∈ (t.renameBound old name id).labelsOf withVars) :
    l ∈ t.labelsOf withVars ∨ l = (name, id) := by
  induction t with
  | hole => exact Or.inl member
  | var n i renamed =>
      simp only [renameBound] at member
      split at member
      · cases withVars with
        | false => exact Or.inl member
        | true => exact Or.inr (by simpa [labelsOf] using member)
      · exact Or.inl member
  | abs n i body ih =>
      simp only [renameBound] at member
      split at member
      · exact Or.inl member
      · simp only [labelsOf, List.mem_cons] at member ⊢
        rcases member with same | inside
        · exact Or.inl (Or.inl same)
        · exact (ih inside).imp_left Or.inr
  | app fn arg ihf iha =>
      simp only [renameBound, labelsOf, List.mem_append] at member ⊢
      rcases member with left | right
      · exact (ihf left).imp_left Or.inl
      · exact (iha right).imp_left Or.inr

theorem HoleFree.renameBound {old id : Int} {name : String} {t : Term} (whole : t.HoleFree) :
    (t.renameBound old name id).HoleFree := by
  induction t with
  | hole => exact whole
  | var n i renamed => simp only [Term.renameBound]; split <;> trivial
  | abs n i body ih =>
      simp only [Term.renameBound]
      split
      · exact whole
      · exact ih whole
  | app fn arg ihf iha => exact ⟨ihf whole.1, iha whole.2⟩

/-- The second term is the first with one binder, anywhere in it, renamed to a new label
together with the variables that it owns. -/
inductive Renamed (name : String) (id : Int) : Term → Term → Prop where
  | here (n : String) (i : Int) (body : Term) :
      Renamed name id (abs n i body) (abs name id (body.renameBound i name id))
  | body {t u : Term} (n : String) (i : Int) (inside : Renamed name id t u) :
      Renamed name id (abs n i t) (abs n i u)
  | fn {t u : Term} (arg : Term) (inside : Renamed name id t u) :
      Renamed name id (app t arg) (app u arg)
  | arg (fn : Term) {t u : Term} (inside : Renamed name id t u) :
      Renamed name id (app fn t) (app fn u)

namespace Renamed

theorem labelsOf {withVars : Bool} {name : String} {id : Int} {t u : Term}
    (change : Renamed name id t u) {l : Label} (member : l ∈ u.labelsOf withVars) :
    l ∈ t.labelsOf withVars ∨ l = (name, id) := by
  induction change with
  | here n i body =>
      simp only [Term.labelsOf, List.mem_cons] at member ⊢
      rcases member with same | inside
      · exact Or.inr same
      · exact (labelsOf_renameBound inside).imp_left Or.inr
  | body n i _ ih =>
      simp only [Term.labelsOf, List.mem_cons] at member ⊢
      rcases member with same | inside
      · exact Or.inl (Or.inl same)
      · exact (ih inside).imp_left Or.inr
  | fn arg _ ih =>
      simp only [Term.labelsOf, List.mem_append] at member ⊢
      rcases member with left | right
      · exact (ih left).imp_left Or.inl
      · exact Or.inl (Or.inr right)
  | arg fn _ ih =>
      simp only [Term.labelsOf, List.mem_append] at member ⊢
      rcases member with left | right
      · exact Or.inl (Or.inl left)
      · exact (ih right).imp_left Or.inr

theorem holeFree {name : String} {id : Int} {t u : Term} (change : Renamed name id t u)
    (whole : t.HoleFree) : u.HoleFree := by
  induction change with
  | here n i body => exact HoleFree.renameBound whole
  | body n i _ ih => exact ih whole
  | fn arg _ ih => exact ⟨ih whole.1, whole.2⟩
  | arg fn _ ih => exact ⟨whole.1, ih whole.2⟩

end Renamed

theorem renamed_modify {name : String} {id : Int} {p : Path} {t : Term} {n : String} {i : Int}
    {inner : Term} (found : t.at? p = some (abs n i inner)) :
    Renamed name id t (t.modify (rename name id) p) := by
  induction p generalizing t with
  | nil =>
      simp only [at?, Option.some.injEq] at found
      subst found
      exact .here n i inner
  | cons step p ih =>
      cases step <;> cases t <;> simp only [at?, reduceCtorEq] at found
      · exact .body _ _ (ih found)
      · exact .fn _ (ih found)
      · exact .arg _ (ih found)

/-! ## Binders by their place -/

/-- The label of the binder at a path, if one stands there. -/
def binderAt? (p : Path) (t : Term) : Option Label :=
  match t.at? p with
  | some (abs name id _) => some (name, id)
  | _ => none

@[simp] theorem binderAt?_nil_abs (name : String) (id : Int) (body : Term) :
    binderAt? [] (abs name id body) = some (name, id) := rfl

@[simp] theorem binderAt?_nil_app (fn arg : Term) : binderAt? [] (app fn arg) = none := rfl

@[simp] theorem binderAt?_body (p : Path) (name : String) (id : Int) (body : Term) :
    binderAt? (.body :: p) (abs name id body) = binderAt? p body := rfl

@[simp] theorem binderAt?_fn (p : Path) (fn arg : Term) :
    binderAt? (.fn :: p) (app fn arg) = binderAt? p fn := rfl

@[simp] theorem binderAt?_arg (p : Path) (fn arg : Term) :
    binderAt? (.arg :: p) (app fn arg) = binderAt? p arg := rfl

theorem exists_binderAt? {t : Term} {l : Label} (member : l ∈ t.binderLabels) :
    ∃ p, t.binderAt? p = some l := by
  induction t with
  | hole => simp [labelsOf] at member
  | var name id renamed => simp [labelsOf] at member
  | abs name id body ih =>
      simp only [labelsOf, List.mem_cons] at member
      rcases member with rfl | inside
      · exact ⟨[], rfl⟩
      · obtain ⟨p, found⟩ := ih inside
        exact ⟨.body :: p, found⟩
  | app fn arg ihf iha =>
      simp only [labelsOf, List.mem_append] at member
      rcases member with left | right
      · obtain ⟨p, found⟩ := ihf left
        exact ⟨.fn :: p, found⟩
      · obtain ⟨p, found⟩ := iha right
        exact ⟨.arg :: p, found⟩

theorem mem_bindersNamed {names : List String} {t : Term} {p : Path} {l : Label}
    (found : t.binderAt? p = some l) (clash : l.1 ∈ names) : p ∈ t.bindersNamed names := by
  induction t generalizing p with
  | hole => cases p with
    | nil => cases found
    | cons step p => cases step <;> cases found
  | var name id renamed => cases p with
    | nil => cases found
    | cons step p => cases step <;> cases found
  | abs name id body ih =>
      cases p with
      | nil =>
          simp only [binderAt?_nil_abs, Option.some.injEq] at found
          subst found
          simp [bindersNamed, clash]
      | cons step p =>
          cases step with
          | body =>
              have below : p ∈ body.bindersNamed names := ih found
              simp only [bindersNamed]
              split <;> simp [below]
          | fn => cases found
          | arg => cases found
  | app fn arg ihf iha =>
      cases p with
      | nil => cases found
      | cons step p =>
          cases step with
          | body => cases found
          | fn => simpa [bindersNamed] using ihf found
          | arg => simpa [bindersNamed] using iha found

theorem binderAt?_renameBound (old id : Int) (name : String) (p : Path) (t : Term) :
    (t.renameBound old name id).binderAt? p = t.binderAt? p := by
  induction p generalizing t with
  | nil =>
      cases t with
      | hole => rfl
      | var n i renamed => simp only [renameBound]; split <;> rfl
      | abs n i body => simp only [renameBound]; split <;> rfl
      | app fn arg => rfl
  | cons step p ih =>
      cases t with
      | hole => rfl
      | var n i renamed => simp only [renameBound]; split <;> cases step <;> rfl
      | abs n i body =>
          simp only [renameBound]
          split
          · rfl
          · cases step with
            | body => exact ih body
            | fn => rfl
            | arg => rfl
      | app fn arg =>
          cases step with
          | body => rfl
          | fn => exact ih fn
          | arg => exact ih arg

/-- Renaming the binder at `p` leaves the labels of all other binders. -/
theorem binderAt?_modify_rename {name : String} {id : Int} {p q : Path} {t : Term}
    (other : q ≠ p) : (t.modify (rename name id) p).binderAt? q = t.binderAt? q := by
  induction p generalizing q t with
  | nil =>
      cases q with
      | nil => exact absurd rfl other
      | cons step q =>
          cases t with
          | abs n i body =>
              cases step with
              | body => exact binderAt?_renameBound i id name q body
              | fn => rfl
              | arg => rfl
          | _ => rfl
  | cons step p ih =>
      have deeper (step' : Step) (q' : Path) (same : step' = step) (longer : q = step' :: q') :
          q' ≠ p := by
        rintro rfl
        exact other (by rw [longer, same])
      cases t with
      | hole => cases step <;> rfl
      | var n i renamed => cases step <;> rfl
      | abs n i body =>
          cases step with
          | body =>
              rcases q with _ | ⟨_ | _ | _, q⟩
              · rfl
              · exact ih (deeper _ q rfl rfl)
              · rfl
              · rfl
          | fn => rfl
          | arg => rfl
      | app fn arg =>
          cases step with
          | body => rfl
          | fn =>
              rcases q with _ | ⟨_ | _ | _, q⟩
              · rfl
              · rfl
              · exact ih (deeper _ q rfl rfl)
              · rfl
          | arg =>
              rcases q with _ | ⟨_ | _ | _, q⟩
              · rfl
              · rfl
              · rfl
              · exact ih (deeper _ q rfl rfl)

theorem binderAt?_modify_rename_self {name : String} {id : Int} {p : Path} {t : Term}
    {l : Label} (found : t.binderAt? p = some l) :
    (t.modify (rename name id) p).binderAt? p = some (name, id) := by
  induction p generalizing t with
  | nil =>
      cases t with
      | abs n i body => rfl
      | _ => cases found
  | cons step p ih =>
      cases t with
      | hole => cases step <;> cases found
      | var n i renamed => cases step <;> cases found
      | abs n i body =>
          cases step with
          | body => exact ih found
          | fn => cases found
          | arg => cases found
      | app fn arg =>
          cases step with
          | body => cases found
          | fn => exact ih found
          | arg => exact ih found

end Term

end UntypedLambda
