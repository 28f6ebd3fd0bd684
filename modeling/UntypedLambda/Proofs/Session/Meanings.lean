import UntypedLambda.Proofs.Expansion.Dependency
import UntypedLambda.Proofs.Nameless.Selection
import UntypedLambda.Proofs.Reduction.Evaluation
import UntypedLambda.Proofs.Session.Faithful
import UntypedLambda.Proofs.Session.Prepared

/-! # What the prelude means

Every session starts with the same definitions, whatever its options are.  A term that is read
against them means the nameless reading of its expansion, and when that has a value, the session
finds it under every bound on the depth that is large enough.

Main statements: `means_builtin`, `Means.exists_depth`. -/
set_option autoImplicit false

namespace UntypedLambda

open Term Expansion

namespace Session

/-! ## The definitions at the start -/

theorem load_alike {s s' : Session} (number : s'.nextId = s.nextId)
    (bindings : s'.bindings = s.bindings) (item : Prelude.Item) :
    (s'.load item).nextId = (s.load item).nextId ∧
      (s'.load item).bindings = (s.load item).bindings := by
  have result : (s'.read item.source).1 = (s.read item.source).1 := by
    rw [read_eq, read_eq, number]
  have next : (s'.read item.source).2.nextId = (s.read item.source).2.nextId := by
    rw [nextId_read, nextId_read, number]
  have kept : (s'.read item.source).2.bindings = (s.read item.source).2.bindings := by
    rw [(read_keeps s' _).2, (read_keeps s _).2, bindings]
  unfold load
  generalize s.read item.source = found at *
  generalize s'.read item.source = found' at *
  obtain ⟨read, after⟩ := found
  obtain ⟨read', after'⟩ := found'
  subst result
  cases read' with
  | error e => exact ⟨next, kept⟩
  | ok t => exact ⟨next, congrArg (item.names.foldl fun b name => b.insert name t) kept⟩

theorem loadAll_alike {s s' : Session} (number : s'.nextId = s.nextId)
    (bindings : s'.bindings = s.bindings) (items : List Prelude.Item) :
    (items.foldl load s').nextId = (items.foldl load s).nextId ∧
      (items.foldl load s').bindings = (items.foldl load s).bindings := by
  induction items generalizing s s' with
  | nil => exact ⟨number, bindings⟩
  | cons item items ih =>
      obtain ⟨number, bindings⟩ := load_alike number bindings item
      exact ih number bindings

theorem new_alike (options : Options) : (new options).nextId = (loaded {}).nextId ∧
    (new options).bindings = (loaded {}).bindings := by
  have untouched := untouched_new options
  rw [untouched.nextId, untouched.bindings]
  exact @loadAll_alike (empty {}) (empty options) rfl rfl Prelude.items

end Session

/-- The definitions of a new session. -/
def Prelude.lookup : String → Option Term := (Session.loaded {}).lookup

theorem Session.lookup_new_eq (options : Options) :
    (Session.new options).lookup = Prelude.lookup := by
  funext name
  rw [Session.lookup, (new_alike options).2]
  rfl

theorem Prelude.lookup_eq_none {name : String}
    (other : name ∉ Prelude.items.flatMap (·.names)) : Prelude.lookup name = none := by
  rw [← Session.lookup_new_eq {}]
  exact Session.lookup_new {} other

/-! ## Free names -/

def Nameless.freeNames : Nameless → List String
  | bound _ => []
  | constant (.free name) => [name]
  | constant _ => []
  | abs body => body.freeNames
  | app fn arg => fn.freeNames ++ arg.freeNames

theorem Term.freeNames_idReading (t : Term) (scope : List Int) :
    (t.idReading scope).freeNames = t.freeNames := by
  induction t generalizing scope with
  | hole => rfl
  | var name id renamed =>
      by_cases free : id = 0
      · subst free
        rfl
      · have none : (var name id renamed).freeNames = [] := by
          simp [Term.freeNames, freeVars, nodes, isFreeVar, free]
        rw [none, idReading, idPlace, if_neg free, Nameless.place]
        split <;> rfl
  | abs name id body ih => rw [freeNames_abs, ← ih (id :: scope)]; rfl
  | app fn arg ihf iha => rw [freeNames_app, ← ihf scope, ← iha scope]; rfl

theorem Named.freeNames_resolve (e : Named) {next : Int} (positive : 0 < next) :
    (e.resolve [] next).freeNames = (e.reading []).freeNames := by
  rw [← freeNames_idReading _ [], e.idReading_resolve_nil positive]

theorem Term.allVars_of_freeNames {P : String → Prop} {t : Term}
    (all : ∀ name ∈ t.freeNames, P name) : t.AllVars fun name id _ => id = 0 → P name := by
  induction t with
  | hole => trivial
  | var name id renamed => exact fun free => all name (mem_freeNames_var.mpr ⟨free, rfl⟩)
  | abs name id body ih => exact ih (by rwa [freeNames_abs] at all)
  | app fn arg ihf iha =>
      rw [freeNames_app] at all
      exact ⟨ihf fun name member => all name (List.mem_append_left _ member),
        iha fun name member => all name (List.mem_append_right _ member)⟩

/-! ## Meanings -/

/-- The term expands to one with that reading. -/
def Means (t : Term) (n : Nameless) : Prop :=
  ∃ u, Expands Prelude.lookup t u ∧ u.idReading [] = n

namespace Means

theorem app {fn arg : Term} {f a : Nameless} (function : Means fn f) (argument : Means arg a) :
    Means (.app fn arg) (.app f a) := by
  obtain ⟨u, left, readsLeft⟩ := function
  obtain ⟨v, right, readsRight⟩ := argument
  exact ⟨.app u v, .app left right, by rw [idReading, readsLeft, readsRight]⟩

/-- A term without names of the prelude means what it reads. -/
theorem of_undefined {t : Term} (whole : t.HoleFree)
    (undefined : ∀ name ∈ t.freeNames, Prelude.lookup name = none) : Means t (t.idReading []) := by
  have done := @visit_eq_done Prelude.lookup (t.height + 1) 0 t whole
    (allVars_of_freeNames undefined) (Nat.lt_succ_self _)
  refine ⟨t, @expands_of_visit _ (t.height + 1) 0 t t ?_, rfl⟩
  rw [done]
  rfl

end Means

/-- Names of the prelude. -/
inductive Builtin where
  | truth | falsity | choice | pair | first | second | tree | datum | left | right
  | incr | plus | times | iszero
deriving DecidableEq

namespace Builtin

def all : List Builtin :=
  [truth, falsity, choice, pair, first, second, tree, datum, left, right, incr, plus, times,
    iszero]

theorem mem_all (b : Builtin) : b ∈ all := by
  cases b <;> decide

def name : Builtin → String
  | truth => "true"
  | falsity => "false"
  | choice => "if"
  | pair => "pair"
  | first => "first"
  | second => "second"
  | tree => "tree"
  | datum => "datum"
  | left => "left"
  | right => "right"
  | incr => "incr"
  | plus => "plus"
  | times => "times"
  | iszero => "iszero"

theorem isIdentifier_name (b : Builtin) : IsIdentifier b.name := by
  cases b <;> decide

def meaning : Builtin → Nameless
  | truth => Nameless.truth
  | falsity => Nameless.falsity
  | choice => Nameless.choice
  | pair => Nameless.pair
  | first => Nameless.first
  | second => Nameless.second
  | tree => Nameless.tree
  | datum => Nameless.datum
  | left => Nameless.left
  | right => Nameless.right
  | incr => Nameless.incr
  | plus => Nameless.plus
  | times => Nameless.times
  | iszero => Nameless.iszero

def term (b : Builtin) : Term := .var b.name 0 false

/-- The whole prelude is read and the names are expanded. -/
theorem expansion_all :
    (∀ b ∈ all, (Expansion.run Prelude.lookup Bound.default b.term).result.toOption.map
      (idReading []) = some b.meaning) ∧
    ∀ b ∈ [truth, falsity], (Prelude.lookup b.name).map (idReading []) = some b.meaning := by
  decide +kernel

end Builtin

theorem means_builtin (b : Builtin) : Means b.term b.meaning := by
  have expanded := Builtin.expansion_all.1 b b.mem_all
  cases result : (Expansion.run Prelude.lookup Bound.default b.term).result with
  | error stop =>
      rw [result] at expanded
      cases expanded
  | ok u =>
      rw [result] at expanded
      exact ⟨u, expands_of_visit result, Option.some.inj expanded⟩

theorem exists_lookup_truth {b : Builtin} (member : b ∈ [Builtin.truth, Builtin.falsity]) :
    ∃ t, Prelude.lookup b.name = some t ∧ t.idReading [] = b.meaning :=
  Option.map_eq_some_iff.mp (Builtin.expansion_all.2 b member)

/-! ## Values -/

/-- What is put together from terms that were read has its value found when the bound on the
depth is large enough. -/
theorem Means.exists_depth {ledger ledger' : Ledger} {options : Options} {t : Term}
    {n v : Nameless} (means : Means t n) (evaluates : Nameless.Evaluates n v)
    (sound : Session.Sound ledger (.new options)) (grown : ledger.Extends ledger')
    (spliced : t.Spliced ledger' []) : ∃ depth : Nat, ∀ o : Options, (depth : Int) ≤ o.maxDepth →
      o.renameFree = false → ∃ e u, (Expansion.run Prelude.lookup o.bound t).result = .ok e ∧
        (Reduction.run o.reduction {} e).result = .ok u ∧ u.idReading [] = v := by
  obtain ⟨e, expands, reading⟩ := means
  obtain ⟨enough, expanded⟩ := expands.exists_visit
  obtain ⟨enough', reaches⟩ := Reduction.exists_visit_of_evaluates evaluates
  -- one bound serves the expansion and the reduction; a setting below one is the default bound
  refine ⟨enough + enough' + 1, fun o large off => ?_⟩
  have bound : enough + enough' ≤ o.bound := by
    have positive : ¬ o.maxDepth < 1 := by omega
    rw [Options.bound, Bound.ofSetting, if_neg positive]
    omega
  have success := expanded (o.bound + 1) (by omega) 0
  have definitions : ∀ name d, Prelude.lookup name = some d → d.Resolved ledger' [] := by
    rw [← Session.lookup_new_eq options]
    exact sound.defines.extend grown
  have numbers : Reduction.Numbers {} e :=
    ⟨Int.le_refl 0, (spliced_of_visit definitions spliced success).numbered⟩
  obtain ⟨u, reduced, result⟩ :=
    reaches (o.bound + 1) (by omega) o.reduction 0 e {} [] numbers (.of_off off) reading
  exact ⟨e, u, success, reduced, result⟩

namespace Session

/-! ## Texts -/

theorem read_of_shows {s : Session} (positive : 0 < s.nextId) {e : Named} {source : String}
    (shows : Shows .term e source.toList) (terminates : e.isLoop = false) :
    (s.read source).1 = .ok (e.resolve [] s.nextId) := by
  have read := parseTerm_of_shows shows s.nextId
  rw [Named.isNonTerminating_resolve positive, terminates] at read
  exact (read_eq s source).trans read

/-- The evaluation of the text succeeds, and the answer has that nameless reading. -/
def Returns (s : Session) (source : String) (v : Nameless) : Prop :=
  ∃ u, (s.evaluate source).1 = .ok u ∧ u.idReading [] = v

/-- A text whose tree means something with a value returns that value in a new session, when the
bound on the depth is large enough. -/
theorem exists_depth_returns {source : String} {e : Named} (shows : Shows .term e source.toList)
    (terminates : e.isLoop = false) {n v : Nameless}
    (means : ∀ next : Int, 0 < next → Means (e.resolve [] next) n)
    (evaluates : Nameless.Evaluates n v) : ∃ depth : Nat, ∀ o : Options,
      (depth : Int) ≤ o.maxDepth → o.renameFree = false → (new o).Returns source v := by
  obtain ⟨ledger, sound⟩ := sound_new {}
  have positive : 0 < (new {}).nextId := sound.next ▸ ledger.pos
  have read := read_of_shows positive shows terminates
  obtain ⟨ledger', grown, _, resolved⟩ := sound.read source
  obtain ⟨depth, found⟩ := (means _ positive).exists_depth evaluates sound grown
    (resolved _ read).spliced
  refine ⟨depth, fun o large off => ?_⟩
  obtain ⟨t, u, expanded, reduced, reading⟩ := found o large off
  have number : (new o).nextId = (new {}).nextId := by
    rw [(new_alike o).1, (new_alike {}).1]
  refine ⟨u, evaluate_eq_ok.mpr ⟨e.resolve [] (new {}).nextId, t, ?_, ?_, ?_⟩, reading⟩
  · rw [← number]
    exact read_of_shows (number ▸ positive) shows terminates
  · rw [lookup_new_eq, options_new]
    exact expanded
  · rw [options_new]
    exact reduced

end Session

end UntypedLambda
