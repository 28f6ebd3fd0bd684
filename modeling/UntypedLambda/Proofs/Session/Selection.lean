import Mathlib.Algebra.Order.BigOperators.Group.List
import Mathlib.Algebra.Order.Group.Nat
import UntypedLambda.Proofs.Session.Meanings

/-! # Selecting components in a new session

Pairs, trees and conditionals of the prelude, put together with terms that the session has read.
What is selected reads as the normal form of the component, whatever names the components use,
as soon as every component has a normal form under some bound on the depth.

Main statement: `evaluate_selection`. -/
set_option autoImplicit false

namespace UntypedLambda

open Term

/-- What is selected, and from what. -/
inductive Selection where
  | first | second | datum | left | right | whenTrue | whenFalse
deriving DecidableEq

namespace Selection

def all : List Selection := [first, second, datum, left, right, whenTrue, whenFalse]

theorem mem_all (s : Selection) : s ∈ all := by
  cases s <;> decide

/-! ## The terms that select -/

/-- Put together from the names of the prelude and the components. -/
def build {α : Type} (builtin : Builtin → α) (apply : α → α → α) (a b c : α) : Selection → α
  | first => apply (builtin .first) (apply (apply (builtin .pair) a) b)
  | second => apply (builtin .second) (apply (apply (builtin .pair) a) b)
  | datum => apply (builtin .datum) (apply (apply (apply (builtin .tree) a) b) c)
  | left => apply (builtin .left) (apply (apply (apply (builtin .tree) a) b) c)
  | right => apply (builtin .right) (apply (apply (apply (builtin .tree) a) b) c)
  | whenTrue => apply (apply (apply (builtin .choice) (builtin .truth)) a) b
  | whenFalse => apply (apply (apply (builtin .choice) (builtin .falsity)) a) b

/-- The component that is selected. -/
def pick {α : Type} (a b c : α) : Selection → α
  | first => a
  | second => b
  | datum => a
  | left => b
  | right => c
  | whenTrue => a
  | whenFalse => b

def term (a b c : Term) : Selection → Term := build Builtin.term .app a b c

def tree (a b c : Named) : Selection → Named := build (fun b => .var b.name) .app a b c

/-- The same as a text, given the texts of the components. -/
def source (a b c : String) : Selection → String
  | first => "first (pair " ++ a ++ " " ++ b ++ ")"
  | second => "second (pair " ++ a ++ " " ++ b ++ ")"
  | datum => "datum (tree " ++ a ++ " " ++ b ++ " " ++ c ++ ")"
  | left => "left (tree " ++ a ++ " " ++ b ++ " " ++ c ++ ")"
  | right => "right (tree " ++ a ++ " " ++ b ++ " " ++ c ++ ")"
  | whenTrue => "if true " ++ a ++ " " ++ b
  | whenFalse => "if false " ++ a ++ " " ++ b

/-- What holds of the parts and is kept by application holds of the whole. -/
theorem build_related {α β : Type} {R : α → β → Prop} {builtin : Builtin → α}
    {builtin' : Builtin → β} {apply : α → α → α} {apply' : β → β → β}
    (builtins : ∀ b, R (builtin b) (builtin' b))
    (applied : ∀ {f f' x x'}, R f f' → R x x' → R (apply f x) (apply' f' x'))
    {a b c : α} {a' b' c' : β} (first : R a a') (second : R b b') (third : R c c')
    (s : Selection) : R (s.build builtin apply a b c) (s.build builtin' apply' a' b' c') := by
  have pair := applied (applied (builtins .pair) first) second
  have tree := applied (applied (applied (builtins .tree) first) second) third
  have choice := fun chooser =>
    applied (applied (applied (builtins .choice) (builtins chooser)) first) second
  cases s with
  | first => exact applied (builtins .first) pair
  | second => exact applied (builtins .second) pair
  | datum => exact applied (builtins .datum) tree
  | left => exact applied (builtins .left) tree
  | right => exact applied (builtins .right) tree
  | whenTrue => exact choice .truth
  | whenFalse => exact choice .falsity

theorem evaluates_build {a b c v w x : Nameless} (first : Nameless.Evaluates a v)
    (second : Nameless.Evaluates b w) (third : Nameless.Evaluates c x) (s : Selection) :
    Nameless.Evaluates (s.build Builtin.meaning .app a b c) (s.pick v w x) := by
  have pair := Nameless.evaluates_pair first second
  have tree := Nameless.evaluates_tree first second third
  cases s with
  | first => exact Nameless.evaluates_first Nameless.isNormal_first.evaluates pair
  | second => exact Nameless.evaluates_second Nameless.isNormal_second.evaluates pair
  | datum => exact Nameless.evaluates_datum tree
  | left => exact Nameless.evaluates_left tree
  | right => exact Nameless.evaluates_right tree
  | whenTrue => exact Nameless.evaluates_choice_truth first second
  | whenFalse => exact Nameless.evaluates_choice_falsity first second

theorem means_term {a b c : Term} {n m k : Nameless} (first : Means a n) (second : Means b m)
    (third : Means c k) (s : Selection) :
    Means (s.term a b c) (s.build Builtin.meaning .app n m k) :=
  build_related means_builtin .app first second third s

theorem resolved_term {ledger : Ledger} {a b c : Term} (first : a.Resolved ledger [])
    (second : b.Resolved ledger []) (third : c.Resolved ledger []) (s : Selection) :
    (s.term a b c).Resolved ledger [] :=
  @build_related _ _ (fun t (_ : Unit) => t.Resolved ledger []) Builtin.term (fun _ => ()) .app
    (fun _ _ => ()) (fun b => .var [] b.isIdentifier_name.1) .app a b c () () () first second
    third s

/-! ## Components -/

/-- A tree whose names are identifiers, none of them from the prelude where it is free, and the
value of its reading. -/
structure Component (e : Named) (v : Nameless) : Prop where
  identifiers : ∀ name ∈ e.names, IsIdentifier name
  undefined : ∀ name ∈ (e.reading []).freeNames, Prelude.lookup name = none
  evaluates : Nameless.Evaluates (e.reading []) v

theorem Component.means {e : Named} {v : Nameless} (component : Component e v) {next : Int}
    (positive : 0 < next) : Means (e.resolve [] next) (e.reading []) := by
  rw [← e.idReading_resolve_nil positive]
  refine .of_undefined (e.holeFree_resolve [] next) ?_
  rw [e.freeNames_resolve positive]
  exact component.undefined

/-- A term that a session reads, and that is reduced to a normal form under some bound, is a
component, and the session can go on. -/
theorem component_of_read {ledger : Ledger} {s s' : Session} (sound : Session.Sound ledger s)
    {source : String} {t t' : Term} {bound : Nat} (read : s.read source = (.ok t, s'))
    (undefined : ∀ name ∈ t.freeNames, name ∉ Prelude.items.flatMap (·.names))
    (reduced : (Reduction.run { bound := bound } {} t).result = .ok t') :
    ∃ ledger', ledger.Extends ledger' ∧ Session.Sound ledger' s' ∧ s'.bindings = s.bindings ∧
      t.Resolved ledger' [] ∧ ∃ (e : Named) (next : Int), 0 < next ∧ t = e.resolve [] next ∧
        Component e (t'.idReading []) := by
  have positive : 0 < s.nextId := sound.next ▸ ledger.pos
  obtain ⟨ledger', grown, sound', resolved⟩ := sound.read source
  have bindings := (Session.read_keeps s source).2
  have parsed : (s.read source).1 = .ok t := by rw [read]
  have resolved := resolved t parsed
  rw [read] at sound' bindings
  refine ⟨ledger', grown, sound', bindings, resolved, ?_⟩
  have numbers : Reduction.Numbers {} t := ⟨Int.le_refl 0, resolved.spliced.numbered⟩
  have evaluates := Reduction.evaluates_of_visit numbers (.of_off rfl) reduced []
  rw [Session.read_eq] at parsed
  obtain ⟨e, rfl, identifiers, _⟩ := exists_resolve_of_parseTerm parsed
  rw [e.idReading_resolve_nil positive] at evaluates
  rw [e.freeNames_resolve positive] at undefined
  exact ⟨e, s.nextId, positive, rfl, identifiers,
    fun name member => Prelude.lookup_eq_none (undefined name member), evaluates⟩

section Terms
variable {a b c : Named} (s : Selection)

/-- The names of the prelude are free, so they keep the number zero. -/
theorem exists_term_resolve {next : Int} (positive : 0 < next) : ∃ n m k : Int, 0 < n ∧ 0 < m ∧
    0 < k ∧ (s.tree a b c).resolve [] next =
      s.term (a.resolve [] n) (b.resolve [] m) (c.resolve [] k) := by
  cases s with
  | first => exact ⟨_, _, 1, by omega, by omega, by omega, rfl⟩
  | second => exact ⟨_, _, 1, by omega, by omega, by omega, rfl⟩
  | datum => exact ⟨_, _, _, by omega, by omega, by omega, rfl⟩
  | left => exact ⟨_, _, _, by omega, by omega, by omega, rfl⟩
  | right => exact ⟨_, _, _, by omega, by omega, by omega, rfl⟩
  | whenTrue => exact ⟨_, _, 1, by omega, by omega, by omega, rfl⟩
  | whenFalse => exact ⟨_, _, 1, by omega, by omega, by omega, rfl⟩

theorem isLoop_tree : (s.tree a b c).isLoop = false := by
  cases s <;> rfl

theorem shows_source {A B C : String} (first : Shows .atom a A.toList)
    (second : Shows .atom b B.toList) (third : Shows .atom c C.toList) :
    Shows .term (s.tree a b c) (s.source A B C).toList := by
  have name : ∀ b : Builtin, Shows .spine (.var b.name) b.name.toList :=
    fun b => (Shows.identifier b.isIdentifier_name).single
  have pair := (((name .pair).apply first).apply second).plain.group
  have tree := ((((name .tree).apply first).apply second).apply third).plain.group
  have truth := (Shows.identifier Builtin.truth.isIdentifier_name)
  have falsity := (Shows.identifier Builtin.falsity.isIdentifier_name)
  unfold source
  cases s with
  | first =>
      simpa [Selection.tree, build, Builtin.name] using ((name .first).apply pair).plain
  | second =>
      simpa [Selection.tree, build, Builtin.name] using ((name .second).apply pair).plain
  | datum =>
      simpa [Selection.tree, build, Builtin.name] using ((name .datum).apply tree).plain
  | left =>
      simpa [Selection.tree, build, Builtin.name] using ((name .left).apply tree).plain
  | right =>
      simpa [Selection.tree, build, Builtin.name] using ((name .right).apply tree).plain
  | whenTrue =>
      simpa [Selection.tree, build, Builtin.name] using
        ((((name .choice).apply truth).apply first).apply second).plain
  | whenFalse =>
      simpa [Selection.tree, build, Builtin.name] using
        ((((name .choice).apply falsity).apply first).apply second).plain

end Terms

/-- One bound on the depth for all that can be selected. -/
theorem exists_common_depth {P : Selection → Options → Prop}
    (each : ∀ s, ∃ depth : Nat, ∀ o : Options, (depth : Int) ≤ o.maxDepth →
      o.renameFree = false → P s o) : ∃ depth : Nat, ∀ o : Options, (depth : Int) ≤ o.maxDepth →
      o.renameFree = false → ∀ s, P s o := by
  choose depth holds using each
  refine ⟨(all.map depth).sum, fun o large off s => holds s o ?_ off⟩
  have below : depth s ≤ (all.map depth).sum :=
    List.le_sum_of_mem (List.mem_map_of_mem s.mem_all)
  omega

end Selection

namespace Session

open Selection

/-- The text is read as a tree of its own, whose components have other numbers. -/
theorem exists_depth_source {a b c : Named} {A B C : String} {v w x : Nameless}
    (first : Component a v) (second : Component b w) (third : Component c x)
    (showsA : Shows .atom a A.toList) (showsB : Shows .atom b B.toList)
    (showsC : Shows .atom c C.toList) (s : Selection) : ∃ depth : Nat, ∀ o : Options,
      (depth : Int) ≤ o.maxDepth → o.renameFree = false →
      (new o).Returns (s.source A B C) (s.pick v w x) := by
  refine exists_depth_returns (s.shows_source showsA showsB showsC) s.isLoop_tree ?_
    (evaluates_build first.evaluates second.evaluates third.evaluates s)
  intro next positive
  obtain ⟨n, m, k, positiveA, positiveB, positiveC, resolved⟩ :=
    @exists_term_resolve a b c s next positive
  rw [resolved]
  exact s.means_term (first.means positiveA) (second.means positiveB) (third.means positiveC)

/-- Pairs, trees and conditionals that are put together from terms that a session has read one
after the other, none of which uses a name of the prelude as a free name.  If every component has
a normal form under some bound on the depth, then under every bound that is large enough the
evaluation succeeds, both of the term that is put together and of its text in a new session, and
the answer reads as the normal form of the component selected. -/
theorem evaluate_selection {options : Options} {A B C : String} {a b c a' b' c' : Term}
    {s₁ s₂ s₃ : Session} {i j k : Nat} (readA : (new options).read A = (.ok a, s₁))
    (readB : s₁.read B = (.ok b, s₂)) (readC : s₂.read C = (.ok c, s₃))
    (undefined : ∀ t ∈ [a, b, c], ∀ name ∈ t.freeNames, name ∉ Prelude.items.flatMap (·.names))
    (reducedA : (Reduction.run { bound := i } {} a).result = .ok a')
    (reducedB : (Reduction.run { bound := j } {} b).result = .ok b')
    (reducedC : (Reduction.run { bound := k } {} c).result = .ok c') :
    ∃ depth : Nat, ∀ o : Options, (depth : Int) ≤ o.maxDepth → o.renameFree = false →
      ∀ s : Selection,
        (∃ u, ((s₃.setOptions o).evaluateTerm (s.term a b c)).result = .ok u ∧
          u.idReading [] = (s.pick a' b' c').idReading []) ∧
        (new o).Returns (s.source a.text b.text c.text) ((s.pick a' b' c').idReading []) := by
  obtain ⟨ledger, sound⟩ := sound_new options
  obtain ⟨ledger₁, grown₁, sound₁, same₁, resolvedA, ea, n, positiveA, rfl, first⟩ :=
    component_of_read sound readA (undefined a (by simp)) reducedA
  obtain ⟨ledger₂, grown₂, sound₂, same₂, resolvedB, eb, m, positiveB, rfl, second⟩ :=
    component_of_read sound₁ readB (undefined b (by simp)) reducedB
  obtain ⟨ledger₃, grown₃, _, same₃, resolvedC, ec, l, positiveC, rfl, third⟩ :=
    component_of_read sound₂ readC (undefined c (by simp)) reducedC
  have definitions : ∀ o, (s₃.setOptions o).lookup = Prelude.lookup := by
    intro o
    rw [← lookup_new_eq options]
    funext name
    exact congrArg (·[name]?) ((same₃.trans same₂).trans same₁)
  apply exists_common_depth
  intro s
  have picked : s.pick (a'.idReading []) (b'.idReading []) (c'.idReading []) =
      (s.pick a' b' c').idReading [] := by
    cases s <;> rfl
  -- read one after the other, the components are all known to the last ledger
  have resolved := resolved_term (resolvedA.extend (grown₂.trans grown₃))
    (resolvedB.extend grown₃) resolvedC s
  have means := means_term (first.means positiveA) (second.means positiveB)
    (third.means positiveC) s
  have evaluates := evaluates_build first.evaluates second.evaluates third.evaluates s
  obtain ⟨depth, found⟩ := means.exists_depth evaluates sound
    ((grown₁.trans grown₂).trans grown₃) resolved.spliced
  obtain ⟨depth', returned⟩ := exists_depth_source first second third
    (Named.shows_text first.identifiers [] n) (Named.shows_text second.identifiers [] m)
    (Named.shows_text third.identifiers [] l) s
  refine ⟨depth + depth', fun o large off => ?_⟩
  have answer := returned o (by omega) off
  obtain ⟨e, u, expanded, reduced, reading⟩ := found o (by omega) off
  rw [picked] at answer reading
  refine ⟨⟨u, evaluateTerm_eq_ok.mpr ⟨e, ?_, reduced⟩, reading⟩, answer⟩
  rw [definitions]
  exact expanded

/-! ### Components with the names of the binders around them -/

/-- Components in which the names of `pair` and `tree` are free and bound. -/
theorem evaluate_selection_collision : ∃ (a b c : Term) (s₁ s₂ s₃ : Session),
    (new {}).read "(λf. (p f))" = (.ok a, s₁) ∧ s₁.read "(λl. (x l))" = (.ok b, s₂) ∧
      s₂.read "f" = (.ok c, s₃) ∧
    ∃ depth : Nat, ∀ o : Options, (depth : Int) ≤ o.maxDepth → o.renameFree = false →
      ∀ s : Selection,
        (∃ u, ((s₃.setOptions o).evaluateTerm (s.term a b c)).result = .ok u ∧
          u.idReading [] = (s.pick a b c).idReading []) ∧
        (new o).Returns (s.source a.text b.text c.text) ((s.pick a b c).idReading []) := by
  obtain ⟨ledger, sound⟩ := sound_new {}
  obtain ⟨ledger₁, _, sound₁, _⟩ := sound.read "(λf. (p f))"
  obtain ⟨ledger₂, _, sound₂, _⟩ := sound₁.read "(λl. (x l))"
  have showsA : Shows .term (.abs "f" (.app (.var "p") (.var "f"))) "(λf. (p f))".toList :=
    (Named.shows_text (by decide) [] 1).term
  have showsB : Shows .term (.abs "l" (.app (.var "x") (.var "l"))) "(λl. (x l))".toList :=
    (Named.shows_text (by decide) [] 1).term
  have showsC : Shows .term (.var "f") "f".toList := (Named.shows_text (by decide) [] 1).term
  have positive : 0 < (new {}).nextId := sound.next ▸ ledger.pos
  have positive₁ := sound₁.next ▸ ledger₁.pos
  have positive₂ := sound₂.next ▸ ledger₂.pos
  have readA := read_of_shows positive showsA rfl
  have readB := read_of_shows positive₁ showsB rfl
  have readC := read_of_shows positive₂ showsC rfl
  refine ⟨_, _, _, _, _, _, Prod.ext readA rfl, Prod.ext readB rfl, Prod.ext readC rfl, ?_⟩
  refine @evaluate_selection _ _ _ _ _ _ _ _ _ _ _ _ _ 2 2 0 (Prod.ext readA rfl)
    (Prod.ext readB rfl) (Prod.ext readC rfl) ?_ rfl rfl rfl
  intro t member
  simp only [List.mem_cons, List.not_mem_nil, or_false] at member
  rcases member with rfl | rfl | rfl
  · rw [Named.freeNames_resolve _ positive]
    decide
  · rw [Named.freeNames_resolve _ positive₁]
    decide
  · rw [Named.freeNames_resolve _ positive₂]
    decide

end Session

end UntypedLambda
