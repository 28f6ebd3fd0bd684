import UntypedLambda.Parser.Reading
import UntypedLambda.Proofs.Term.Scope

/-! # Named terms

A term without numbers is what a text says before it is known which binder a variable belongs to.
`resolve` numbers the binders in pre-order and gives every variable the number of the nearest
binder of its name.  The terms that come about in this way are described without `resolve` at
the end: no hole, variables scoped by name, consecutive numbers. -/
set_option autoImplicit false

namespace UntypedLambda

inductive Named where
  | var (name : String)
  | abs (name : String) (body : Named)
  | app (fn arg : Named)
deriving DecidableEq, Repr, Inhabited

namespace Named

def binders : Named → Nat
  | var _ => 0
  | abs _ body => body.binders + 1
  | app fn arg => fn.binders + arg.binders

/-- The abstraction over several parameters, the first of them outermost. -/
def abstract (params : List String) (body : Named) : Named := params.foldr .abs body

/-- The term below the binders `scope`, innermost first, with its own binders numbered upwards
from `next`. -/
def resolve (scope : List Label) (next : Int) : Named → Term
  | var name => .var name ((scope.lookup name).getD 0) false
  | abs name body => .abs name next (body.resolve ((name, next) :: scope) (next + 1))
  | app fn arg => .app (fn.resolve scope next) (arg.resolve scope (next + fn.binders))

def isTripleSelfApplication : Named → Bool
  | abs x (app (app (var a) (var b)) (var c)) => a == x && b == x && c == x
  | _ => false

/-- The tree `(λv. v v v) (λw. w w w)`. -/
def isLoop : Named → Bool
  | app fn arg => fn.isTripleSelfApplication && arg.isTripleSelfApplication
  | _ => false

/-! ## Several parameters at once -/

theorem binders_abstract (params : List String) (body : Named) :
    (abstract params body).binders = params.length + body.binders := by
  induction params with
  | nil => simp [abstract]
  | cons name params ih =>
      have inner : (abstract (name :: params) body).binders = (abstract params body).binders + 1 :=
        rfl
      rw [inner, ih, List.length_cons]
      omega

theorem number_reverse_cons (next : Int) (name : String) (params : List String) :
    Reading.number next (name :: params).reverse =
      Reading.number (next + 1) params.reverse ++ [(name, next)] := by
  have shifted : ∀ (names : List String) (i : Nat) (base : Int),
      ((names.zipIdx (i + 1)).map fun p => (p.1, base + p.2)) =
        (names.zipIdx i).map fun p => (p.1, base + 1 + p.2) := by
    intro names
    induction names with
    | nil => intro i base; rfl
    | cons n names ih =>
        intro i base
        simp only [List.zipIdx_cons, List.map_cons, ih]
        congr 2
        push_cast
        omega
  rw [Reading.number, Reading.number, List.reverse_reverse, List.reverse_reverse,
    List.zipIdx_cons, List.map_cons, List.reverse_cons, shifted params 0 next]
  simp

/-- A run of parameters is numbered at once, before the body. -/
theorem resolve_abstract (params : List String) (body : Named) (scope : List Label)
    (next : Int) : (abstract params body).resolve scope next =
      Reading.wrap (Reading.number next params.reverse)
        (body.resolve (Reading.number next params.reverse ++ scope) (next + params.length)) := by
  induction params generalizing scope next with
  | nil => simp [abstract, Reading.number, Reading.wrap]
  | cons name params ih =>
      have outer : (abstract (name :: params) body).resolve scope next =
          .abs name next ((abstract params body).resolve ((name, next) :: scope) (next + 1)) := rfl
      have count : next + 1 + (params.length : Int) = next + ((name :: params).length : Nat) := by
        rw [List.length_cons]
        omega
      rw [outer, ih, number_reverse_cons, count]
      simp [Reading.wrap]

/-! ## The looping shape -/

theorem isTripleSelfApplication_resolve {next : Int} (bound : next ≠ 0) (e : Named) :
    (e.resolve [] next).isTripleSelfApplication = e.isTripleSelfApplication := by
  -- a variable right below the only binder has its number exactly if it has its name
  have own : ∀ name x : String,
      (((([(x, next)] : List Label).lookup name).getD 0 == next) = (name == x)) := by
    intro name x
    by_cases same : name = x
    · subst same
      simp
    · have other : (name == x) = false := beq_eq_false_iff_ne.mpr same
      simp [List.lookup_cons, other, Ne.symm bound]
  cases e with
  | var name => rfl
  | app fn arg => rfl
  | abs x body =>
      cases body with
      | var name => rfl
      | abs y body => rfl
      | app fn c =>
          cases fn with
          | var name => rfl
          | abs y body => rfl
          | app a b =>
              cases a <;> cases b <;> cases c <;> try rfl
              simp only [resolve, Term.isTripleSelfApplication, isTripleSelfApplication, own]

theorem isNonTerminating_resolve {next : Int} (positive : 0 < next) (e : Named) :
    (e.resolve [] next).isNonTerminating = e.isLoop := by
  cases e with
  | var name => rfl
  | abs name body => rfl
  | app fn arg =>
      simp only [resolve, Term.isNonTerminating, isLoop]
      rw [isTripleSelfApplication_resolve (by omega), isTripleSelfApplication_resolve (by omega)]

end Named

/-! ## What numbering gives -/

namespace Term

/-- The variable has the number of the nearest binder of its name, or zero if there is none. -/
def ScopedByName (scope : List Label) (name : String) (id : Int) : Prop :=
  id = (scope.lookup name).getD 0

instance (scope : List Label) (name : String) (id : Int) :
    Decidable (ScopedByName scope name id) :=
  inferInstanceAs (Decidable (id = (scope.lookup name).getD 0))

def binderNumbers (t : Term) : List Int := t.binderLabels.map Prod.snd

/-- The numbers `next`, `next + 1` and so on, as many as there are binders, in pre-order. -/
def NumberedFrom (next : Int) (t : Term) : Prop :=
  t.binderNumbers = (List.range t.binderNumbers.length).map fun (i : Nat) => next + i

instance (next : Int) (t : Term) : Decidable (t.NumberedFrom next) :=
  inferInstanceAs (Decidable (_ = _))

/-- The term without the marks of renamed variables. -/
def unmarked : Term → Term
  | hole => hole
  | var name id _ => var name id false
  | abs name id body => abs name id body.unmarked
  | app fn arg => app fn.unmarked arg.unmarked

theorem text_unmarked (t : Term) : t.unmarked.text = t.text := by
  induction t with
  | hole => rfl
  | var name id renamed => rfl
  | abs name id body ih => rw [unmarked, text, text, ih]
  | app fn arg ihf iha => rw [unmarked, text, text, ihf, iha]

theorem labels_unmarked (t : Term) : t.unmarked.labels = t.labels := by
  induction t with
  | hole => rfl
  | var name id renamed => rfl
  | abs name id body ih => simp [unmarked, labelsOf, ih]
  | app fn arg ihf iha => simp [unmarked, labelsOf, ihf, iha]

theorem isNonTerminating_unmarked (t : Term) : t.unmarked.isNonTerminating = t.isNonTerminating := by
  have triple : ∀ t : Term, t.unmarked.isTripleSelfApplication = t.isTripleSelfApplication := by
    intro t
    cases t with
    | hole => rfl
    | var name id renamed => rfl
    | app fn arg => rfl
    | abs x id body =>
        cases body with
        | hole => rfl
        | var name id renamed => rfl
        | abs name id body => rfl
        | app fn c =>
            cases fn with
            | hole => rfl
            | var name id renamed => rfl
            | abs name id body => rfl
            | app a b => cases a <;> cases b <;> cases c <;> rfl
  cases t with
  | hole => rfl
  | var name id renamed => rfl
  | abs name id body => rfl
  | app fn arg => simp only [unmarked, isNonTerminating, triple]

end Term

namespace Named

open Term

theorem holeFree_resolve (e : Named) (scope : List Label) (next : Int) :
    (e.resolve scope next).HoleFree := by
  induction e generalizing scope next with
  | var name => trivial
  | abs name body ih => exact ih _ _
  | app fn arg ihf iha => exact ⟨ihf _ _, iha _ _⟩

theorem eq_of_resolve_eq {e e' : Named} {scope scope' : List Label} {next next' : Int}
    (same : e.resolve scope next = e'.resolve scope' next') : e = e' := by
  induction e generalizing e' scope scope' next next' with
  | var name =>
      cases e' with
      | var name' =>
          simp only [resolve, Term.var.injEq] at same
          rw [same.1]
      | abs name' body' => cases same
      | app fn' arg' => cases same
  | abs name body ih =>
      cases e' with
      | var name' => cases same
      | abs name' body' =>
          simp only [resolve, Term.abs.injEq] at same
          rw [same.1, ih same.2.2]
      | app fn' arg' => cases same
  | app fn arg ihf iha =>
      cases e' with
      | var name' => cases same
      | abs name' body' => cases same
      | app fn' arg' =>
          simp only [resolve, Term.app.injEq] at same
          rw [ihf same.1, iha same.2]

theorem range_succ_map (next : Int) (count : Nat) :
    ((List.range (count + 1)).map fun (i : Nat) => next + i) =
      next :: (List.range count).map fun (i : Nat) => next + 1 + i := by
  rw [List.range_succ_eq_map, List.map_cons, List.map_map]
  congr 1
  · simp
  · apply List.map_congr_left
    intro i _
    simp only [Function.comp_apply]
    push_cast
    omega

theorem range_add_map (next : Int) (left right : Nat) :
    ((List.range (left + right)).map fun (i : Nat) => next + i) =
      ((List.range left).map fun (i : Nat) => next + i) ++
        (List.range right).map fun (i : Nat) => next + left + i := by
  rw [List.range_add, List.map_append, List.map_map]
  congr 1
  apply List.map_congr_left
  intro i _
  simp only [Function.comp_apply]
  push_cast
  omega

theorem binderNumbers_resolve (e : Named) (scope : List Label) (next : Int) :
    (e.resolve scope next).binderNumbers =
      (List.range e.binders).map fun (i : Nat) => next + i := by
  induction e generalizing scope next with
  | var name => rfl
  | abs name body ih =>
      have inner := ih ((name, next) :: scope) (next + 1)
      simp only [binderNumbers, resolve, labelsOf, List.map_cons, binders, range_succ_map] at inner ⊢
      rw [inner]
  | app fn arg ihf iha =>
      have left := ihf scope next
      have right := iha scope (next + fn.binders)
      simp only [binderNumbers, resolve, labelsOf, List.map_append, binders,
        range_add_map] at left right ⊢
      rw [left, right]

end Named

namespace Term

open Named

theorem NumberedFrom.body {next : Int} {name : String} {id : Int} {body : Term}
    (numbered : (abs name id body).NumberedFrom next) :
    id = next ∧ body.NumberedFrom (next + 1) := by
  simp only [NumberedFrom, binderNumbers, labelsOf, List.map_cons, List.length_cons,
    range_succ_map, List.cons.injEq] at numbered ⊢
  exact numbered

theorem NumberedFrom.split {next : Int} {fn arg : Term}
    (numbered : (app fn arg).NumberedFrom next) :
    fn.NumberedFrom next ∧ arg.NumberedFrom (next + fn.binderNumbers.length) := by
  simp only [NumberedFrom, binderNumbers, labelsOf, List.map_append, List.length_append,
    range_add_map] at numbered ⊢
  exact List.append_inj numbered (by simp)

theorem length_binderNumbers_resolve (e : Named) (scope : List Label) (next : Int) :
    (e.resolve scope next).binderNumbers.length = e.binders := by
  rw [binderNumbers_resolve]
  simp

theorem binderNumbers_unmarked (t : Term) : t.unmarked.binderNumbers = t.binderNumbers := by
  induction t with
  | hole => rfl
  | var name id renamed => rfl
  | abs name id body ih =>
      simp only [binderNumbers, unmarked, labelsOf, List.map_cons] at ih ⊢
      rw [ih]
  | app fn arg ihf iha =>
      simp only [binderNumbers, unmarked, labelsOf, List.map_append] at ihf iha ⊢
      rw [ihf, iha]

/-- These are all the terms that numbering gives, marks apart. -/
theorem exists_resolve {t : Term} {scope : List Label} {next : Int} (whole : t.HoleFree)
    (named : t.EveryVar ScopedByName scope) (numbered : t.NumberedFrom next) :
    ∃ e : Named, t.unmarked = e.resolve scope next := by
  induction t generalizing scope next with
  | hole => exact whole.elim
  | var name id renamed =>
      refine ⟨.var name, ?_⟩
      have number : id = (scope.lookup name).getD 0 := named
      rw [unmarked, resolve, number]
  | abs name id body ih =>
      obtain ⟨rfl, inner⟩ := numbered.body
      obtain ⟨e, same⟩ := ih whole named inner
      exact ⟨.abs name e, by rw [unmarked, resolve, same]⟩
  | app fn arg ihf iha =>
      obtain ⟨left, right⟩ := numbered.split
      obtain ⟨f, sameFn⟩ := ihf whole.1 named.1 left
      have count : fn.binderNumbers.length = f.binders := by
        rw [← binderNumbers_unmarked, sameFn, length_binderNumbers_resolve]
      rw [count] at right
      obtain ⟨a, sameArg⟩ := iha whole.2 named.2 right
      exact ⟨.app f a, by rw [unmarked, resolve, sameFn, sameArg]⟩

end Term

namespace Named

open Term

/-! ## What a tree reads as -/

/-- The tree as a nameless term, below binders with the names `scope`. -/
def reading (scope : List String) : Named → Nameless
  | var name => namePlace scope name
  | abs name body => .abs (body.reading (name :: scope))
  | app fn arg => .app (fn.reading scope) (arg.reading scope)

/-- The nearest binder of a name is the nearest one of its number. -/
theorem idPlace_lookup {scope : List Label} (apart : (scope.map Prod.snd).Nodup)
    (bound : ∀ l ∈ scope, l.2 ≠ 0) (name : String) :
    idPlace (scope.map Prod.snd) name ((scope.lookup name).getD 0) =
      namePlace (scope.map Prod.fst) name := by
  induction scope with
  | nil => rfl
  | cons l scope ih =>
      obtain ⟨n, i⟩ := l
      obtain ⟨notLater, apart⟩ := List.nodup_cons.mp apart
      have later := ih apart fun m member => bound m (List.mem_cons_of_mem _ member)
      have boundHere : i ≠ 0 := bound (n, i) List.mem_cons_self
      by_cases same : n = name
      · subst same
        simp only [List.lookup_cons_self, Option.getD_some, List.map_cons, namePlace_cons_self]
        exact idPlace_cons_self boundHere _ _
      · have other : i ≠ (scope.lookup name).getD 0 := by
          cases found : scope.lookup name with
          | none => exact boundHere
          | some j =>
              rintro rfl
              obtain ⟨inner, outer, rfl, _⟩ := List.lookup_eq_some_iff.mp found
              exact notLater (by simp)
        have skipped : ((n, i) :: scope).lookup name = scope.lookup name := by
          rw [List.lookup_cons, beq_eq_false_iff_ne.mpr (Ne.symm same)]
        rw [skipped, List.map_cons, List.map_cons, idPlace_cons_of_ne other, later,
          namePlace_cons_of_ne same]

/-- The numbers that `resolve` gives say what the names say. -/
theorem idReading_resolve (e : Named) {scope : List Label} {next : Int} (positive : 0 < next)
    (apart : (scope.map Prod.snd).Nodup) (before : ∀ l ∈ scope, 0 < l.2 ∧ l.2 < next) :
    (e.resolve scope next).idReading (scope.map Prod.snd) = e.reading (scope.map Prod.fst) := by
  induction e generalizing scope next with
  | var name => exact idPlace_lookup apart (fun l member => by have := before l member; omega) name
  | abs name body ih =>
      have fresh : next ∉ scope.map Prod.snd := by
        intro member
        obtain ⟨l, inside, same⟩ := List.mem_map.mp member
        have := before l inside
        omega
      have inner : ∀ l ∈ (name, next) :: scope, 0 < l.2 ∧ l.2 < next + 1 := by
        intro l member
        rcases List.mem_cons.mp member with rfl | member
        · exact ⟨positive, Int.lt_succ next⟩
        · have := before l member
          omega
      have inside := @ih ((name, next) :: scope) (next + 1) (by omega)
        (List.nodup_cons.mpr ⟨fresh, apart⟩) inner
      exact congrArg Nameless.abs inside
  | app fn arg ihf iha =>
      refine congrArg₂ Nameless.app (ihf positive apart before) (iha (by omega) apart ?_)
      intro l member
      have := before l member
      omega

theorem idReading_resolve_nil (e : Named) {next : Int} (positive : 0 < next) :
    (e.resolve [] next).idReading [] = e.reading [] :=
  @idReading_resolve e [] next positive List.nodup_nil fun _ member => nomatch member

end Named

end UntypedLambda
