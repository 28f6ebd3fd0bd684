import UntypedLambda.Proofs.Term.Reading

/-! # Scopes

What holds of every variable of a term, given the binders around it, and which properties of
this kind a renaming and a substitution keep.  The two that matter make up faithfulness: a
variable with a number sees its own binder by name, and a free variable has no binder of its
name around it. -/
set_option autoImplicit false

namespace UntypedLambda

namespace Term

/-! ## What holds of every variable, wherever it stands -/

/-- Every variable has the property `P` of its name, its number and its mark. -/
def AllVars (P : String → Int → Bool → Prop) : Term → Prop
  | hole => True
  | var name id renamed => P name id renamed
  | abs _ _ body => body.AllVars P
  | app fn arg => fn.AllVars P ∧ arg.AllVars P

section AllVars
variable {P : String → Int → Bool → Prop}

theorem AllVars.mono {Q : String → Int → Bool → Prop}
    (weaker : ∀ name id renamed, P name id renamed → Q name id renamed) {t : Term}
    (all : t.AllVars P) : t.AllVars Q := by
  induction t with
  | hole => trivial
  | var name id renamed => exact weaker name id renamed all
  | abs name id body ih => exact ih all
  | app fn arg ihf iha => exact ⟨ihf all.1, iha all.2⟩

theorem AllVars.and {Q : String → Int → Bool → Prop} {t : Term} (left : t.AllVars P)
    (right : t.AllVars Q) :
    t.AllVars fun name id renamed => P name id renamed ∧ Q name id renamed := by
  induction t with
  | hole => trivial
  | var name id renamed => exact ⟨left, right⟩
  | abs name id body ih => exact ih left right
  | app fn arg ihf iha => exact ⟨ihf left.1 right.1, iha left.2 right.2⟩

theorem AllVars.substitute {id : Int} {arg t : Term} (argument : arg.AllVars P)
    (all : t.AllVars P) : (Term.substitute id arg t).AllVars P := by
  induction t with
  | hole => trivial
  | var name i renamed =>
      simp only [Term.substitute]
      split
      · exact argument
      · exact all
  | abs name i body ih =>
      simp only [Term.substitute]
      split
      · exact all
      · exact ih all
  | app fn arg' ihf iha => exact ⟨ihf all.1, iha all.2⟩

theorem AllVars.renameBound {old id : Int} {name : String} {t : Term}
    (moved : ∀ n renamed, P n old renamed → P name id renamed) (all : t.AllVars P) :
    (t.renameBound old name id).AllVars P := by
  induction t with
  | hole => trivial
  | var n i renamed =>
      simp only [Term.renameBound]
      split
      · rename_i same
        subst same
        exact moved n renamed all
      · exact all
  | abs n i body ih =>
      simp only [Term.renameBound]
      split
      · exact all
      · exact ih all
  | app fn arg ihf iha => exact ⟨ihf all.1, iha all.2⟩

theorem Renamed.allVars {name : String} {id : Int} {t u : Term} (change : Renamed name id t u)
    (binders : ∀ l ∈ t.binderLabels, l.2 ≠ 0)
    (moved : ∀ n i renamed, i ≠ 0 → P n i renamed → P name id renamed) (all : t.AllVars P) :
    u.AllVars P := by
  induction change with
  | here n i body =>
      have bound : i ≠ 0 := binders (n, i) (by simp [Term.labelsOf])
      exact AllVars.renameBound (fun m renamed => moved m i renamed bound) all
  | body n i _ ih => exact ih (fun l member => binders l (by simp [Term.labelsOf, member])) all
  | fn arg _ ih =>
      exact ⟨ih (fun l member => binders l (by simp [Term.labelsOf, member])) all.1, all.2⟩
  | arg fn _ ih =>
      exact ⟨all.1, ih (fun l member => binders l (by simp [Term.labelsOf, member])) all.2⟩

end AllVars

/-! ## What holds of every variable where it stands -/

/-- Every variable has the property `P`, given the binders around it, innermost first. -/
def EveryVar (P : List Label → String → Int → Prop) (scope : List Label) : Term → Prop
  | hole => True
  | var name id _ => P scope name id
  | abs name id body => body.EveryVar P ((name, id) :: scope)
  | app fn arg => fn.EveryVar P scope ∧ arg.EveryVar P scope

instance instDecidableEveryVar (P : List Label → String → Int → Prop)
    [decide : ∀ scope name id, Decidable (P scope name id)] :
    (scope : List Label) → (t : Term) → Decidable (t.EveryVar P scope)
  | _, hole => isTrue trivial
  | scope, var name id _ => decide scope name id
  | scope, abs name id body => instDecidableEveryVar P ((name, id) :: scope) body
  | scope, app fn arg =>
    @instDecidableAnd _ _ (instDecidableEveryVar P scope fn) (instDecidableEveryVar P scope arg)

theorem EveryVar.mono {P Q : List Label → String → Int → Prop}
    (weaker : ∀ scope name id, P scope name id → Q scope name id) {scope : List Label} {t : Term}
    (all : t.EveryVar P scope) : t.EveryVar Q scope := by
  induction t generalizing scope with
  | hole => trivial
  | var name id renamed => exact weaker scope name id all
  | abs name id body ih => exact ih all
  | app fn arg ihf iha => exact ⟨ihf all.1, iha all.2⟩

/-! ## Well-numbered terms -/

/-- A binder with that number stands around the variable, unless it is free. -/
def Owned (scope : List Label) (_ : String) (id : Int) : Prop :=
  id ≠ 0 → id ∈ scope.map Prod.snd

instance (scope : List Label) (name : String) (id : Int) : Decidable (Owned scope name id) :=
  inferInstanceAs (Decidable (id ≠ 0 → id ∈ scope.map Prod.snd))

/-- Labels with the same number have the same name. -/
def Agree (labels labels' : List Label) : Prop :=
  ∀ l ∈ labels, ∀ m ∈ labels', l.2 = m.2 → l.2 ≠ 0 → l.1 = m.1

instance (labels labels' : List Label) : Decidable (Agree labels labels') :=
  inferInstanceAs (Decidable (∀ l ∈ labels, ∀ m ∈ labels', l.2 = m.2 → l.2 ≠ 0 → l.1 = m.1))

theorem Agree.symm {labels labels' : List Label} (agree : Agree labels labels') :
    Agree labels' labels :=
  fun l hl m hm same bound => (agree m hm l hl same.symm (same ▸ bound)).symm

theorem Agree.append {left right labels : List Label} (first : Agree left labels)
    (second : Agree right labels) : Agree (left ++ right) labels := by
  intro l member
  rcases List.mem_append.mp member with member | member
  · exact first l member
  · exact second l member

/-- What holds of every part of a coherent term as well. -/
structure Numbered (low : Int) (t : Term) : Prop where
  holeFree : t.HoleFree
  binder_ne_zero : ∀ l ∈ t.binderLabels, l.2 ≠ 0
  consistent : Agree t.labels t.labels
  low_le : ∀ l ∈ t.labels, low ≤ l.2

/-- A term that can be reduced when numbers from `low` upwards may be in use: nothing is
absent, binders have numbers, every number refers to a binder, equal numbers go with equal
names, and no number is below `low`. -/
structure Coherent (low : Int) (t : Term) : Prop extends Numbered low t where
  owned : t.EveryVar Owned []

instance (low : Int) (t : Term) : Decidable (Numbered low t) :=
  decidable_of_iff (t.HoleFree ∧ (∀ l ∈ t.binderLabels, l.2 ≠ 0) ∧ Agree t.labels t.labels ∧
      ∀ l ∈ t.labels, low ≤ l.2)
    ⟨fun ⟨whole, binders, consistent, least⟩ => ⟨whole, binders, consistent, least⟩,
      fun ⟨whole, binders, consistent, least⟩ => ⟨whole, binders, consistent, least⟩⟩

instance (low : Int) (t : Term) : Decidable (Coherent low t) :=
  decidable_of_iff (Numbered low t ∧ t.EveryVar Owned [])
    ⟨fun ⟨numbered, owned⟩ => ⟨numbered, owned⟩, fun ⟨numbered, owned⟩ => ⟨numbered, owned⟩⟩

namespace Numbered

theorem body {low : Int} {name : String} {id : Int} {body : Term}
    (whole : Numbered low (.abs name id body)) : Numbered low body where
  holeFree := whole.holeFree
  binder_ne_zero := fun l member => whole.binder_ne_zero l (by simp [labelsOf, member])
  consistent := fun l hl m hm =>
    whole.consistent l (by simp [labelsOf, hl]) m (by simp [labelsOf, hm])
  low_le := fun l member => whole.low_le l (by simp [labelsOf, member])

theorem fn {low : Int} {fn arg : Term} (whole : Numbered low (.app fn arg)) :
    Numbered low fn where
  holeFree := whole.holeFree.1
  binder_ne_zero := fun l member => whole.binder_ne_zero l (by simp [labelsOf, member])
  consistent := fun l hl m hm =>
    whole.consistent l (by simp [labelsOf, hl]) m (by simp [labelsOf, hm])
  low_le := fun l member => whole.low_le l (by simp [labelsOf, member])

theorem arg {low : Int} {fn arg : Term} (whole : Numbered low (.app fn arg)) :
    Numbered low arg where
  holeFree := whole.holeFree.2
  binder_ne_zero := fun l member => whole.binder_ne_zero l (by simp [labelsOf, member])
  consistent := fun l hl m hm =>
    whole.consistent l (by simp [labelsOf, hl]) m (by simp [labelsOf, hm])
  low_le := fun l member => whole.low_le l (by simp [labelsOf, member])

/-! ### A part is replaced

The new part has labels of the old one, and others with numbers below all that were in use. -/

theorem agree_of_new {low : Int} {old new others : List Label} (agree : Agree old others)
    (low_le : ∀ m ∈ others, low ≤ m.2)
    (origin : ∀ l ∈ new, l ∈ old ∨ (l.2 ≠ 0 → l.2 < low)) : Agree new others := by
  intro l hl m hm same bound
  rcases origin l hl with before | below
  · exact agree l before m hm same bound
  · have := low_le m hm
    have := below bound
    omega

variable {low low' : Int} {t u : Term}

theorem replace_fn {arg : Term} (whole : Numbered low (.app t arg)) (part : Numbered low' u)
    (lower : low' ≤ low) (origin : ∀ l ∈ u.labels, l ∈ t.labels ∨ (l.2 ≠ 0 → l.2 < low)) :
    Numbered low' (.app u arg) := by
  have cross : Agree u.labels arg.labels := by
    refine agree_of_new (fun l hl m hm => ?_) whole.arg.low_le origin
    exact whole.consistent l (by simp [labelsOf, hl]) m (by simp [labelsOf, hm])
  refine ⟨⟨part.holeFree, whole.arg.holeFree⟩, ?_, ?_, ?_⟩
  · intro l member
    rcases List.mem_append.mp member with member | member
    · exact part.binder_ne_zero l member
    · exact whole.arg.binder_ne_zero l member
  · exact (part.consistent.append cross.symm).symm.append
      (cross.append whole.arg.consistent).symm
  · intro l member
    rcases List.mem_append.mp member with member | member
    · exact part.low_le l member
    · exact Int.le_trans lower (whole.arg.low_le l member)

theorem replace_arg {fn : Term} (whole : Numbered low (.app fn t)) (part : Numbered low' u)
    (lower : low' ≤ low) (origin : ∀ l ∈ u.labels, l ∈ t.labels ∨ (l.2 ≠ 0 → l.2 < low)) :
    Numbered low' (.app fn u) := by
  have cross : Agree u.labels fn.labels := by
    refine agree_of_new (fun l hl m hm => ?_) whole.fn.low_le origin
    exact whole.consistent l (by simp [labelsOf, hl]) m (by simp [labelsOf, hm])
  refine ⟨⟨whole.fn.holeFree, part.holeFree⟩, ?_, ?_, ?_⟩
  · intro l member
    rcases List.mem_append.mp member with member | member
    · exact whole.fn.binder_ne_zero l member
    · exact part.binder_ne_zero l member
  · exact (whole.fn.consistent.append cross).symm.append
      (cross.symm.append part.consistent).symm
  · intro l member
    rcases List.mem_append.mp member with member | member
    · exact Int.le_trans lower (whole.fn.low_le l member)
    · exact part.low_le l member

theorem replace_body {name : String} {id : Int} (whole : Numbered low (.abs name id t))
    (part : Numbered low' u) (lower : low' ≤ low)
    (origin : ∀ l ∈ u.labels, l ∈ t.labels ∨ (l.2 ≠ 0 → l.2 < low)) :
    Numbered low' (.abs name id u) := by
  have low_le : low ≤ id := whole.low_le (name, id) (by simp [labelsOf])
  have cross : Agree u.labels [(name, id)] := by
    refine agree_of_new (fun l hl m hm => ?_) (by simpa using low_le) origin
    exact whole.consistent l (by simp [labelsOf, hl]) m
      (by simp [labelsOf, List.mem_singleton.mp hm])
  refine ⟨part.holeFree, ?_, ?_, ?_⟩
  · intro l member
    rcases List.mem_cons.mp member with rfl | member
    · exact whole.binder_ne_zero _ (by simp [labelsOf])
    · exact part.binder_ne_zero l member
  · have own : Agree [(name, id)] [(name, id)] := by
      intro l hl m hm _ _
      rw [List.mem_singleton.mp hl, List.mem_singleton.mp hm]
    exact (own.append cross).symm.append (cross.symm.append part.consistent).symm
  · intro l member
    rcases List.mem_cons.mp member with rfl | member
    · exact Int.le_trans lower low_le
    · exact part.low_le l member

theorem renamed {name : String} (numbered : Numbered low t) (numbers : low ≤ 0)
    (change : Renamed name (low - 1) t u) : Numbered (low - 1) u := by
  refine ⟨change.holeFree numbered.holeFree, ?_, ?_, ?_⟩
  · intro l member
    rcases change.labelsOf member with before | rfl
    · exact numbered.binder_ne_zero l before
    · show low - 1 ≠ 0
      omega
  · intro l hl m hm same bound
    rcases change.labelsOf hl with hl | rfl <;> rcases change.labelsOf hm with hm | rfl
    · exact numbered.consistent l hl m hm same bound
    · have := numbered.low_le l hl
      simp only at same
      omega
    · have := numbered.low_le m hm
      simp only at same
      omega
    · rfl
  · intro l member
    rcases change.labelsOf member with before | rfl
    · have := numbered.low_le l before
      omega
    · exact Int.le_refl _

theorem substitute {name : String} {id : Int} {arg : Term}
    (redex : Numbered low (.app (.abs name id t) arg)) :
    Numbered low (Term.substitute id arg t) := by
  have part : ∀ l ∈ (Term.substitute id arg t).labels,
      l ∈ (Term.app (.abs name id t) arg).labels := by
    intro l member
    rcases labelsOf_substitute member with inside | right
    · exact List.mem_append_left _ (List.mem_cons_of_mem _ inside)
    · exact List.mem_append_right _ right
  refine ⟨redex.fn.body.holeFree.substitute redex.arg.holeFree, ?_, ?_, ?_⟩
  · intro l member
    rcases labelsOf_substitute member with inside | right
    · exact redex.fn.body.binder_ne_zero l inside
    · exact redex.arg.binder_ne_zero l right
  · exact fun l hl m hm => redex.consistent l (part l hl) m (part m hm)
  · exact fun l member => redex.low_le l (part l member)

end Numbered

/-! ## Properties that a change of binders keeps -/

/-- A property that a variable keeps when a binder that does not own it goes away or comes,
that a variable right below its own binder has, and a free variable of a new name too. -/
structure Stable (P : List Label → String → Int → Prop) : Prop where
  drop : ∀ {inner outer : List Label} {n m : String} {i j : Int}, i ≠ 0 →
    (j = i → i ∈ inner.map Prod.snd) → P (inner ++ (n, i) :: outer) m j → P (inner ++ outer) m j
  insert : ∀ {inner outer : List Label} {n m : String} {i j : Int}, n ≠ m → i ≠ j →
    P (inner ++ outer) m j → P (inner ++ (n, i) :: outer) m j
  own : ∀ {inner outer : List Label} {n : String} {i : Int}, i ≠ 0 →
    (∀ l ∈ inner, l.1 ≠ n ∧ l.2 ≠ i) → P (inner ++ (n, i) :: outer) n i
  free : ∀ {scope : List Label} {n : String}, (∀ l ∈ scope, l.1 ≠ n) → P scope n 0

section Changes
variable {P : List Label → String → Int → Prop} (stable : Stable P)
include stable

theorem EveryVar.insert {inner outer : List Label} {n : String} {i : Int} {t : Term}
    (apart : ∀ l ∈ t.labels, n ≠ l.1 ∧ i ≠ l.2) (all : t.EveryVar P (inner ++ outer)) :
    t.EveryVar P (inner ++ (n, i) :: outer) := by
  induction t generalizing inner with
  | hole => trivial
  | var m j renamed =>
      obtain ⟨names, numbers⟩ := apart (m, j) (by simp [labelsOf])
      exact stable.insert names numbers all
  | abs m j body ih =>
      exact @ih ((m, j) :: inner) (fun l member => apart l (by simp [labelsOf, member])) all
  | app fn arg ihf iha =>
      exact ⟨ihf (fun l member => apart l (by simp [labelsOf, member])) all.1,
        iha (fun l member => apart l (by simp [labelsOf, member])) all.2⟩

theorem EveryVar.drop {inner outer : List Label} {n : String} {i : Int} {t : Term}
    (bound : i ≠ 0) (shadowed : i ∈ inner.map Prod.snd)
    (all : t.EveryVar P (inner ++ (n, i) :: outer)) : t.EveryVar P (inner ++ outer) := by
  induction t generalizing inner with
  | hole => trivial
  | var m j renamed => exact stable.drop bound (fun _ => shadowed) all
  | abs m j body ih => exact @ih ((m, j) :: inner) (by simp [shadowed]) all
  | app fn arg ihf iha => exact ⟨ihf shadowed all.1, iha shadowed all.2⟩

theorem EveryVar.substitute {inner outer : List Label} {n : String} {i : Int} {arg t : Term}
    (bound : i ≠ 0)
    (apart : ∀ l ∈ t.binderLabels, ∀ m ∈ arg.labels, l.1 ≠ m.1 ∧ l.2 ≠ m.2)
    (argument : arg.EveryVar P (inner ++ outer))
    (all : t.EveryVar P (inner ++ (n, i) :: outer)) :
    (Term.substitute i arg t).EveryVar P (inner ++ outer) := by
  induction t generalizing inner with
  | hole => trivial
  | var m j renamed =>
      simp only [Term.substitute]
      split
      · exact argument
      · rename_i other
        exact stable.drop bound (fun same => absurd same other) all
  | abs m j body ih =>
      simp only [Term.substitute]
      split
      · rename_i same
        exact @EveryVar.drop P stable ((m, j) :: inner) _ _ _ _ bound (by simp [same]) all
      · have below : arg.EveryVar P ((m, j) :: inner ++ outer) :=
          @EveryVar.insert P stable [] (inner ++ outer) m j arg
            (apart (m, j) (by simp [labelsOf])) argument
        exact @ih ((m, j) :: inner) (fun l member => apart l (by simp [labelsOf, member])) below all
  | app fn arg' ihf iha =>
      exact ⟨ihf (fun l member => apart l (by simp [labelsOf, member])) argument all.1,
        iha (fun l member => apart l (by simp [labelsOf, member])) argument all.2⟩

theorem EveryVar.renameBound {inner outer : List Label} {n name : String} {i id : Int} {t : Term}
    (bound : i ≠ 0) (boundNew : id ≠ 0) (fresh : ∀ l ∈ t.labels, name ≠ l.1 ∧ id ≠ l.2)
    (freshInner : ∀ l ∈ inner, l.1 ≠ name ∧ l.2 ≠ id)
    (all : t.EveryVar P (inner ++ (n, i) :: outer)) :
    (t.renameBound i name id).EveryVar P (inner ++ (name, id) :: outer) := by
  induction t generalizing inner with
  | hole => trivial
  | var m j renamed =>
      obtain ⟨names, numbers⟩ := fresh (m, j) (by simp [labelsOf])
      simp only [Term.renameBound]
      split
      · exact stable.own boundNew freshInner
      · rename_i other
        exact stable.insert names numbers
          (stable.drop bound (fun same => absurd same other) all)
  | abs m j body ih =>
      have freshBody : ∀ l ∈ body.labels, name ≠ l.1 ∧ id ≠ l.2 :=
        fun l member => fresh l (by simp [labelsOf, member])
      simp only [Term.renameBound]
      split
      · rename_i same
        -- the inner binder owns all variables with its number, so nothing changes below it
        have without : body.EveryVar P ((m, j) :: inner ++ outer) :=
          @EveryVar.drop P stable ((m, j) :: inner) _ _ _ _ bound (by simp [same]) all
        exact @EveryVar.insert P stable ((m, j) :: inner) outer name id body freshBody without
      · apply @ih ((m, j) :: inner) freshBody _ all
        intro l member
        rcases List.mem_cons.mp member with rfl | member
        · obtain ⟨names, numbers⟩ := fresh (m, j) (by simp [labelsOf])
          exact ⟨Ne.symm names, Ne.symm numbers⟩
        · exact freshInner l member
  | app fn arg ihf iha =>
      exact ⟨ihf (fun l member => fresh l (by simp [labelsOf, member])) freshInner all.1,
        iha (fun l member => fresh l (by simp [labelsOf, member])) freshInner all.2⟩

theorem Renamed.everyVar {name : String} {id : Int} {t u : Term} (change : Renamed name id t u)
    (bound : id ≠ 0) (binders : ∀ l ∈ t.binderLabels, l.2 ≠ 0)
    (fresh : ∀ l ∈ t.labels, name ≠ l.1 ∧ id ≠ l.2) {scope : List Label}
    (all : t.EveryVar P scope) : u.EveryVar P scope := by
  induction change generalizing scope with
  | here n i body =>
      exact @EveryVar.renameBound P stable [] scope n name i id body
        (binders (n, i) (by simp [Term.labelsOf])) bound
        (fun l member => fresh l (by simp [Term.labelsOf, member])) (by simp) all
  | body n i _ ih =>
      exact ih (fun l member => binders l (by simp [Term.labelsOf, member]))
        (fun l member => fresh l (by simp [Term.labelsOf, member])) all
  | fn arg _ ih =>
      exact ⟨ih (fun l member => binders l (by simp [Term.labelsOf, member]))
        (fun l member => fresh l (by simp [Term.labelsOf, member])) all.1, all.2⟩
  | arg fn _ ih =>
      exact ⟨all.1, ih (fun l member => binders l (by simp [Term.labelsOf, member]))
        (fun l member => fresh l (by simp [Term.labelsOf, member])) all.2⟩

end Changes

/-! ## Faithfulness, variable by variable -/

/-- Going outwards, the first binder with the name is also the first with the number. -/
def Sees : List Label → String → Int → Prop
  | [], _, _ => False
  | l :: scope, name, id => l = (name, id) ∨ l.1 ≠ name ∧ l.2 ≠ id ∧ Sees scope name id

/-- A variable with a number shows its binder by its name. -/
def BoundFaithful (scope : List Label) (name : String) (id : Int) : Prop :=
  id ≠ 0 → Sees scope name id

/-- A free variable stands below no binder of its name. -/
def Uncaptured (scope : List Label) (name : String) (id : Int) : Prop :=
  id = 0 → ∀ l ∈ scope, l.1 ≠ name

theorem Sees.mem {scope : List Label} {name : String} {id : Int} (sees : Sees scope name id) :
    (name, id) ∈ scope := by
  induction scope with
  | nil => exact sees.elim
  | cons l scope ih =>
      rcases sees with rfl | ⟨_, _, sees⟩
      · exact List.mem_cons_self
      · exact List.mem_cons_of_mem l (ih sees)

theorem BoundFaithful.owned {scope : List Label} {name : String} {id : Int}
    (faithful : BoundFaithful scope name id) : Owned scope name id :=
  fun bound => List.mem_map.mpr ⟨(name, id), (faithful bound).mem, rfl⟩

theorem EveryVar.mem_of_boundFaithful {scope : List Label} {t : Term}
    (faithful : t.EveryVar BoundFaithful scope) {l : Label} (member : l ∈ t.labels)
    (bound : l.2 ≠ 0) : l ∈ scope ∨ l ∈ t.binderLabels := by
  induction t generalizing scope with
  | hole => cases member
  | var name id renamed =>
      have same : l = (name, id) := List.mem_singleton.mp member
      subst same
      exact Or.inl (faithful bound).mem
  | abs name id body ih =>
      rcases List.mem_cons.mp member with rfl | member
      · exact Or.inr List.mem_cons_self
      · rcases ih faithful member with outside | inside
        · rcases List.mem_cons.mp outside with rfl | outside
          · exact Or.inr List.mem_cons_self
          · exact Or.inl outside
        · exact Or.inr (List.mem_cons_of_mem _ inside)
  | app fn arg ihf iha =>
      rcases List.mem_append.mp member with member | member
      · exact (ihf faithful.1 member).imp_right (List.mem_append_left _)
      · exact (iha faithful.2 member).imp_right (List.mem_append_right _)

theorem boundFaithful_stable : Stable BoundFaithful where
  drop := by
    intro inner outer n m i j bound shadowed faithful hj
    have sees := faithful hj
    clear faithful
    induction inner with
    | nil =>
        rcases sees with same | ⟨_, _, sees⟩
        · cases same
          exact absurd (shadowed rfl) (by simp)
        · exact sees
    | cons l inner ih =>
        rcases sees with same | ⟨names, numbers, sees⟩
        · exact Or.inl same
        · refine Or.inr ⟨names, numbers, ih (fun same => ?_) sees⟩
          rcases List.mem_cons.mp (shadowed same) with first | later
          · exact absurd (first.symm.trans same.symm) numbers
          · exact later
  insert := by
    intro inner outer n m i j names numbers faithful hj
    have sees := faithful hj
    clear faithful
    induction inner with
    | nil => exact Or.inr ⟨names, numbers, sees⟩
    | cons l inner ih =>
        rcases sees with same | ⟨names', numbers', sees⟩
        · exact Or.inl same
        · exact Or.inr ⟨names', numbers', ih sees⟩
  own := by
    intro inner outer n i bound apart _
    induction inner with
    | nil => exact Or.inl rfl
    | cons l inner ih =>
        obtain ⟨names, numbers⟩ := apart l List.mem_cons_self
        exact Or.inr ⟨names, numbers, ih fun m member => apart m (List.mem_cons_of_mem l member)⟩
  free := fun _ bound => absurd rfl bound

theorem uncaptured_stable : Stable Uncaptured where
  drop := by
    intro inner outer n m i j _ _ uncaptured free l member
    refine uncaptured free l ?_
    rcases List.mem_append.mp member with left | right
    · exact List.mem_append_left _ left
    · exact List.mem_append_right _ (List.mem_cons_of_mem _ right)
  insert := by
    intro inner outer n m i j names _ uncaptured free l member
    rcases List.mem_append.mp member with left | right
    · exact uncaptured free l (List.mem_append_left _ left)
    · rcases List.mem_cons.mp right with rfl | right
      · exact names
      · exact uncaptured free l (List.mem_append_right _ right)
  own := fun bound _ free => absurd free bound
  free := fun fresh _ => fresh

theorem AllVars.uncaptured {t : Term} (bound : t.AllVars fun _ id _ => id ≠ 0)
    (scope : List Label) : t.EveryVar Uncaptured scope := by
  induction t generalizing scope with
  | hole => trivial
  | var name id renamed => exact fun free => absurd free bound
  | abs name id body ih => exact ih bound ((name, id) :: scope)
  | app fn arg ihf iha => exact ⟨ihf bound.1 scope, iha bound.2 scope⟩

theorem namePlace_cons_self (scope : List String) (name : String) :
    namePlace (name :: scope) name = .bound 0 :=
  Nameless.place_cons_self scope name _

theorem namePlace_cons_of_ne {n name : String} (other : n ≠ name) (scope : List String) :
    namePlace (n :: scope) name = (namePlace scope name).rename (· + 1) :=
  Nameless.place_cons_of_ne other scope _

theorem rename_succ_ne_bound_zero (t : Nameless) : t.rename (· + 1) ≠ .bound 0 := by
  cases t <;> simp [Nameless.rename]

theorem namePlace_eq_idPlace_iff_sees {scope : List Label} {name : String} {id : Int}
    (bound : id ≠ 0) :
    namePlace (scope.map Prod.fst) name = idPlace (scope.map Prod.snd) name id ↔
      Sees scope name id := by
  induction scope with
  | nil => simp [namePlace, idPlace, bound, Nameless.place, Sees]
  | cons l scope ih =>
      obtain ⟨n, i⟩ := l
      simp only [List.map_cons, Sees, Prod.mk.injEq]
      by_cases byName : n = name
      · subst byName
        rw [namePlace_cons_self]
        by_cases byNumber : i = id
        · subst byNumber
          simp [idPlace_cons_self bound]
        · rw [idPlace_cons_of_ne byNumber]
          simp [(rename_succ_ne_bound_zero _).symm, byNumber]
      · rw [namePlace_cons_of_ne byName]
        by_cases byNumber : i = id
        · subst byNumber
          simp [idPlace_cons_self bound, rename_succ_ne_bound_zero, byName]
        · rw [idPlace_cons_of_ne byNumber]
          simp only [byName, byNumber, false_and, not_false_eq_true, ne_eq, true_and, false_or]
          rw [← ih, Nameless.rename_succ_inj]

theorem namePlace_eq_free_iff {scope : List Label} {name : String} :
    namePlace (scope.map Prod.fst) name = .constant (.free name) ↔ ∀ l ∈ scope, l.1 ≠ name := by
  have absent : (scope.map Prod.fst).idxOf? name = none ↔ ∀ l ∈ scope, l.1 ≠ name := by
    rw [List.idxOf?_eq_none_iff, List.mem_map]
    constructor
    · exact fun none l member same => none ⟨l, member, same⟩
    · rintro all ⟨l, member, same⟩
      exact all l member same
  rw [← absent, namePlace, Nameless.place]
  cases (scope.map Prod.fst).idxOf? name <;> simp

/-- The two readings agree exactly if they agree at every variable. -/
theorem nameReading_eq_idReading_iff {scope : List Label} {t : Term} :
    t.nameReading (scope.map Prod.fst) = t.idReading (scope.map Prod.snd) ↔
      t.EveryVar BoundFaithful scope ∧ t.EveryVar Uncaptured scope := by
  induction t generalizing scope with
  | hole => simp [nameReading, idReading, EveryVar]
  | var name id renamed =>
      simp only [nameReading, idReading, EveryVar, BoundFaithful, Uncaptured]
      by_cases free : id = 0
      · subst free
        simp [idPlace_zero, namePlace_eq_free_iff]
      · simp [free, namePlace_eq_idPlace_iff_sees free]
  | abs name id body ih =>
      simp only [nameReading, idReading, Nameless.abs.injEq]
      exact @ih ((name, id) :: scope)
  | app fn arg ihf iha =>
      simp only [nameReading, idReading, EveryVar, Nameless.app.injEq, ihf, iha]
      exact and_and_and_comm

theorem faithful_iff {t : Term} :
    t.Faithful ↔ t.EveryVar BoundFaithful [] ∧ t.EveryVar Uncaptured [] :=
  @nameReading_eq_idReading_iff [] t

end Term

end UntypedLambda
