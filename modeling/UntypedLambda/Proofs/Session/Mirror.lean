import UntypedLambda.Proofs.Session.Prepared
import UntypedLambda.Proofs.Term.Printing

/-! # The table and the definitions

The equivalence table is kept in two directions and beside the definitions.  The prelude fills
all three in two passes, a definition that replaces another takes the old entry out first, and
commands take definitions away: after each of them the three agree again.

Main statement: `table_mirrors`. -/
set_option autoImplicit false

namespace UntypedLambda

namespace Equivalences

/-- The class of `h` has `name` in it. -/
def Holds (e : Equivalences) (name : String) (h : Int64) : Prop :=
  ∃ members, e.classes[h]? = some members ∧ name ∈ members

/-- The two directions agree, and no class is kept when its last name has gone. -/
structure Consistent (e : Equivalences) : Prop where
  holds_iff : ∀ name h, e.Holds name h ↔ e.fingerprints[name]? = some h
  inhabited : ∀ (h : Int64) (members : Std.TreeSet String), e.classes[h]? = some members →
    ∃ name, name ∈ members

theorem mem_names {e : Equivalences} {h : Int64} {name : String} :
    name ∈ e.names h ↔ e.Holds name h := by
  unfold names Holds
  cases e.classes[h]? <;> simp

theorem pairwise_names (e : Equivalences) (h : Int64) : (e.names h).Pairwise (· < ·) := by
  unfold names
  split
  · rename_i members found
    have ordered : members.toList.Pairwise fun a b => compare a b = .lt :=
      Std.TreeSet.ordered_toList
    exact ordered.imp fun before => compareOfLessAndEq_eq_lt.mp before
  · exact List.Pairwise.nil

theorem mem_getD_classes {e : Equivalences} {h : Int64} {name : String} :
    name ∈ e.classes.getD h ∅ ↔ e.Holds name h := by
  rw [Std.TreeMap.getD_eq_getD_getElem?]
  unfold Holds
  cases e.classes[h]? <;> simp

/-! ## Entering a name -/

theorem getElem?_fingerprints_insert (e : Equivalences) (name : String) (h : Int64)
    (x : String) : (e.insert name h).fingerprints[x]? =
      if name = x then some h else e.fingerprints[x]? := by
  rw [insert, Std.TreeMap.getElem?_insert]
  simp

theorem getElem?_classes_insert (e : Equivalences) (name : String) (h g : Int64) :
    (e.insert name h).classes[g]? =
      if h = g then some ((e.classes.getD h ∅).insert name) else e.classes[g]? := by
  rw [insert, Std.TreeMap.getElem?_insert]
  simp

theorem holds_insert {e : Equivalences} {name x : String} {h g : Int64} :
    (e.insert name h).Holds x g ↔ (h = g ∧ name = x) ∨ e.Holds x g := by
  by_cases same : h = g
  · subst same
    have only : (e.insert name h).Holds x h ↔ x ∈ (e.classes.getD h ∅).insert name := by
      simp only [Holds, getElem?_classes_insert, if_true, Option.some.injEq, exists_eq_left']
    rw [only, Std.TreeSet.mem_insert, mem_getD_classes]
    simp
  · have unchanged : (e.insert name h).classes[g]? = e.classes[g]? := by
      rw [getElem?_classes_insert, if_neg same]
    simp only [Holds, unchanged, same, false_and, false_or]

theorem consistent_empty : Consistent empty where
  holds_iff := by
    intro name h
    simp [Holds, empty]
  inhabited := by
    intro h members found
    simp [empty] at found

theorem Consistent.insert {e : Equivalences} (consistent : e.Consistent) {name : String}
    (fresh : e.fingerprints[name]? = none) (h : Int64) : (e.insert name h).Consistent where
  holds_iff := by
    intro x g
    rw [holds_insert, getElem?_fingerprints_insert, consistent.holds_iff]
    split
    · rename_i same
      subst same
      simp [fresh]
    · rename_i other
      simp [other]
  inhabited := by
    intro g members found
    rw [getElem?_classes_insert] at found
    split at found
    · cases found
      exact ⟨name, Std.TreeSet.mem_insert_self⟩
    · exact consistent.inhabited g members found

/-! ## Taking a name out -/

theorem getElem?_fingerprints_erase (e : Equivalences) (name x : String) :
    (e.erase name).fingerprints[x]? = if name = x then none else e.fingerprints[x]? := by
  unfold erase
  split
  · rename_i missing
    split
    · rename_i same
      rw [← same, missing]
    · rfl
  · rw [Std.TreeMap.getElem?_erase]
    simp

theorem getElem?_classes_erase {e : Equivalences} {name : String} {h : Int64}
    (found : e.fingerprints[name]? = some h) (g : Int64) : (e.erase name).classes[g]? =
      if h = g then
        if ((e.classes.getD h ∅).erase name).isEmpty then none
        else some ((e.classes.getD h ∅).erase name)
      else e.classes[g]? := by
  unfold erase
  rw [found]
  dsimp only
  by_cases emptied : ((e.classes.getD h ∅).erase name).isEmpty = true
  · rw [if_pos emptied, if_pos emptied, Std.TreeMap.getElem?_erase]
    simp
  · rw [if_neg emptied, if_neg emptied, Std.TreeMap.getElem?_insert]
    simp

theorem holds_erase {e : Equivalences} {name x : String} {h g : Int64}
    (found : e.fingerprints[name]? = some h) :
    (e.erase name).Holds x g ↔ e.Holds x g ∧ ¬ (h = g ∧ name = x) := by
  by_cases same : h = g
  · subst same
    have only : (e.erase name).Holds x h ↔ x ∈ (e.classes.getD h ∅).erase name := by
      unfold Holds
      rw [getElem?_classes_erase found, if_pos rfl]
      split
      · rename_i emptied
        constructor
        · rintro ⟨members, impossible, _⟩
          cases impossible
        · intro member
          rw [Std.TreeSet.isEmpty_eq_false_iff_exists_mem.mpr ⟨x, member⟩] at emptied
          cases emptied
      · simp
    rw [only, Std.TreeSet.mem_erase, mem_getD_classes]
    simp [and_comm]
  · have unchanged : (e.erase name).classes[g]? = e.classes[g]? := by
      rw [getElem?_classes_erase found, if_neg same]
    simp only [Holds, unchanged, same, false_and, not_false_iff, and_true]

theorem Consistent.erase {e : Equivalences} (consistent : e.Consistent) (name : String) :
    (e.erase name).Consistent := by
  cases found : e.fingerprints[name]? with
  | none =>
      have same : e.erase name = e := by
        unfold Equivalences.erase
        rw [found]
      rw [same]
      exact consistent
  | some h =>
      refine ⟨?_, ?_⟩
      · intro x g
        rw [holds_erase found, getElem?_fingerprints_erase, consistent.holds_iff]
        split
        · rename_i same
          subst same
          simp [found]
        · rename_i other
          simp [other]
      · intro g members present
        rw [getElem?_classes_erase found] at present
        split at present
        · split at present
          · cases present
          · rename_i left
            cases present
            exact Std.TreeSet.isEmpty_eq_false_iff_exists_mem.mp (Bool.eq_false_iff.mpr left)
        · exact consistent.inhabited g members present

end Equivalences

namespace Session

/-! ## What the prelude binds -/

/-- Every item of the prelude is written the way a term is printed. -/
theorem printed_prelude : ∀ item ∈ Prelude.items,
    (Term.ofSource item.source).toOption.map Term.text = some item.source := by
  decide +kernel

/-- A text in the form that is printed can be read, whatever number comes next. -/
theorem exists_read_of_printed {s : Session} (positive : 0 < s.nextId) {source : String}
    (printed : (Term.ofSource source).toOption.map Term.text = some source) :
    ∃ t, (s.read source).1 = .ok t := by
  cases once : Term.ofSource source with
  | error e =>
      rw [once] at printed
      cases printed
  | ok t =>
      rw [once] at printed
      have text : t.text = source := Option.some.inj printed
      obtain ⟨e, rfl, identifiers, terminates⟩ := Term.exists_resolve_of_ofSource once
      have shows := (Named.shows_text identifiers [] 1).term
      rw [text] at shows
      rw [Named.isNonTerminating_resolve Int.one_pos] at terminates
      have read := parseTerm_of_shows shows s.nextId
      rw [Named.isNonTerminating_resolve positive, terminates] at read
      exact ⟨e.resolve [] s.nextId, (read_eq s source).trans read⟩

theorem mem_insertAll {names : List String} {t : Term} {b : Std.TreeMap String Term}
    {x : String} :
    x ∈ names.foldl (fun b name => b.insert name t) b ↔ x ∈ names ∨ x ∈ b := by
  rw [Std.TreeMap.mem_iff_isSome_getElem?, getElem?_insertAll, Std.TreeMap.mem_iff_isSome_getElem?]
  by_cases member : x ∈ names <;> simp [member]

theorem mem_load {s : Session} {item : Prelude.Item} {t : Term}
    (success : (s.read item.source).1 = .ok t) {x : String} :
    x ∈ (s.load item).bindings ↔ x ∈ item.names ∨ x ∈ s.bindings := by
  have bindings := (read_keeps s item.source).2
  unfold load
  split
  · rename_i e s' failed
    rw [failed] at success
    cases success
  · rename_i t' s' read
    rw [read] at bindings
    rw [mem_insertAll, bindings]

theorem mem_loadAll {s : Session} {items : List Prelude.Item} (sound : ∃ ledger, Sound ledger s)
    (printed : ∀ item ∈ items,
      (Term.ofSource item.source).toOption.map Term.text = some item.source) {x : String} :
    x ∈ (items.foldl load s).bindings ↔ x ∈ items.flatMap (·.names) ∨ x ∈ s.bindings := by
  induction items generalizing s with
  | nil => simp
  | cons item items ih =>
      obtain ⟨ledger, sound⟩ := sound
      have positive : 0 < s.nextId := sound.next ▸ ledger.pos
      obtain ⟨t, read⟩ := exists_read_of_printed positive (printed item List.mem_cons_self)
      have later : ∀ item ∈ items,
          (Term.ofSource item.source).toOption.map Term.text = some item.source :=
        fun item member => printed item (List.mem_cons_of_mem _ member)
      rw [List.foldl_cons, ih (sound.load item) later, mem_load read, List.flatMap_cons,
        List.mem_append]
      grind

theorem mem_loaded (options : Options) {x : String} :
    x ∈ (loaded options).bindings ↔ x ∈ Prelude.items.flatMap (·.names) := by
  obtain ⟨ledger, ready⟩ := ready_empty options
  rw [loaded, mem_loadAll ⟨ledger, ready.toSound⟩ printed_prelude]
  simp [empty]

/-! ## Entering bound names -/

/-- Enters names that are bound, one after the other. -/
def enterAll (s : Session) (names : List String) : Session :=
  names.foldl (fun s name => s.classify name (s.bindings.getD name .hole)) s

theorem equivalences_started (options : Options) (items : List Prelude.Item) :
    Session.equivalences
      (let s := (items.flatMap (·.names)).foldl
        (fun s name => s.classify name (s.bindings.getD name .hole))
        (items.foldl load (empty options))
       { s with log := s.log.clear }) =
      ((items.foldl load (empty options)).enterAll (items.flatMap (·.names))).equivalences :=
  rfl

theorem equivalences_new (options : Options) : (new options).equivalences =
    ((loaded options).enterAll (Prelude.items.flatMap (·.names))).equivalences :=
  equivalences_started options Prelude.items

theorem fingerprints_enterAll (s : Session) (names : List String) (x : String) :
    (s.enterAll names).equivalences.fingerprints[x]? =
      if x ∈ names then some (s.normalForm (s.bindings.getD x .hole)).structureFingerprint
      else s.equivalences.fingerprints[x]? := by
  induction names generalizing s with
  | nil => rfl
  | cons name names ih =>
      have first := Equivalences.getElem?_fingerprints_insert s.equivalences name
        (s.normalForm (s.bindings.getD name .hole)).structureFingerprint x
      refine (ih (s.classify name (s.bindings.getD name .hole))).trans ?_
      by_cases later : x ∈ names
      · rw [if_pos later, if_pos (List.mem_cons_of_mem _ later)]
        rfl
      · rw [if_neg later]
        refine first.trans ?_
        by_cases same : name = x
        · subst same
          rw [if_pos rfl, if_pos List.mem_cons_self]
        · rw [if_neg same, if_neg]
          intro member
          rcases List.mem_cons.mp member with eq | member
          · exact same eq.symm
          · exact later member

theorem consistent_enterAll {s : Session} {names : List String}
    (consistent : s.equivalences.Consistent) (nodup : names.Nodup)
    (fresh : ∀ name ∈ names, s.equivalences.fingerprints[name]? = none) :
    (s.enterAll names).equivalences.Consistent := by
  induction names generalizing s with
  | nil => exact consistent
  | cons name names ih =>
      obtain ⟨other, nodup⟩ := List.nodup_cons.mp nodup
      have entered := consistent.insert (fresh name List.mem_cons_self)
        (s.normalForm (s.bindings.getD name .hole)).structureFingerprint
      refine @ih (s.classify name (s.bindings.getD name .hole)) entered nodup ?_
      intro x member
      have apart : name ≠ x := fun same => other (same ▸ member)
      refine (Equivalences.getElem?_fingerprints_insert _ _ _ x).trans ?_
      rw [if_neg apart]
      exact fresh x (List.mem_cons_of_mem _ member)

theorem equivalences_load (s : Session) (item : Prelude.Item) :
    (s.load item).equivalences = s.equivalences := by
  have same := equivalences_read s item.source
  unfold load
  split <;> rename_i read <;> rw [read] at same <;> exact same

theorem equivalences_loadAll (s : Session) (items : List Prelude.Item) :
    (items.foldl load s).equivalences = s.equivalences := by
  induction items generalizing s with
  | nil => rfl
  | cons item items ih => exact (ih (s.load item)).trans (equivalences_load s item)

theorem equivalences_loaded (options : Options) :
    (loaded options).equivalences = Equivalences.empty :=
  equivalences_loadAll (empty options) Prelude.items

/-! ## Table and definitions -/

/-- The table is consistent and has exactly the names that are bound. -/
structure Mirrored (s : Session) : Prop extends s.equivalences.Consistent where
  names : ∀ name, s.equivalences.fingerprints[name]?.isSome = (s.lookup name).isSome

/-- The table while a name is being bound, without the entry of an older definition. -/
def cleared (s : Session) (name : String) : Equivalences :=
  if s.bindings.contains name then s.equivalences.erase name else s.equivalences

theorem equivalences_bind (s : Session) (name : String) (t : Term) :
    (s.bind name t).equivalences =
      (s.cleared name).insert name ((s.bind name t).normalForm t).structureFingerprint :=
  rfl

theorem fingerprints_bind (s : Session) (name : String) (t : Term) (x : String) :
    (s.bind name t).equivalences.fingerprints[x]? =
      if name = x then some ((s.bind name t).normalForm t).structureFingerprint
      else s.equivalences.fingerprints[x]? := by
  rw [equivalences_bind, Equivalences.getElem?_fingerprints_insert]
  split
  · rfl
  · rename_i other
    unfold cleared
    split
    · rw [Equivalences.getElem?_fingerprints_erase, if_neg other]
    · rfl

theorem fingerprints_unbind (s : Session) (name x : String) :
    (s.unbind name).equivalences.fingerprints[x]? =
      if name = x then none else s.equivalences.fingerprints[x]? :=
  Equivalences.getElem?_fingerprints_erase s.equivalences name x

namespace Mirrored

variable {s s' : Session}

theorem same (mirrored : Mirrored s) (bindings : s'.bindings = s.bindings)
    (equivalences : s'.equivalences = s.equivalences) : Mirrored s' := by
  refine ⟨equivalences ▸ mirrored.toConsistent, ?_⟩
  intro name
  rw [equivalences, lookup_eq_of_bindings bindings]
  exact mirrored.names name

theorem cleared (mirrored : Mirrored s) (name : String) :
    (s.cleared name).Consistent ∧ (s.cleared name).fingerprints[name]? = none := by
  unfold Session.cleared
  split
  · refine ⟨mirrored.toConsistent.erase name, ?_⟩
    rw [Equivalences.getElem?_fingerprints_erase, if_pos rfl]
  · rename_i unbound
    refine ⟨mirrored.toConsistent, ?_⟩
    rw [Std.TreeMap.contains_eq_isSome_getElem?] at unbound
    rw [← Option.not_isSome_iff_eq_none, mirrored.names]
    exact unbound

theorem bind (mirrored : Mirrored s) (name : String) (t : Term) : Mirrored (s.bind name t) := by
  obtain ⟨consistent, fresh⟩ := mirrored.cleared name
  refine ⟨consistent.insert fresh _, ?_⟩
  intro x
  rw [fingerprints_bind, lookup_bind]
  split
  · simp
  · exact mirrored.names x

theorem unbind (mirrored : Mirrored s) (name : String) : Mirrored (s.unbind name) := by
  refine ⟨mirrored.toConsistent.erase name, ?_⟩
  intro x
  rw [fingerprints_unbind, lookup_unbind]
  split
  · simp
  · exact mirrored.names x

theorem change {touched : Option String} (change : Change touched s s') (mirrored : Mirrored s) :
    Mirrored s' := by
  cases change with
  | keep bindings equivalences _ => exact mirrored.same bindings equivalences
  | bind bindings equivalences name _ =>
      exact (mirrored.same bindings equivalences).bind name _
  | unbind _ => exact mirrored.unbind _

end Mirrored

theorem mirrored_new (options : Options) : Mirrored (new options) := by
  have nothing : ∀ x : String, (loaded options).equivalences.fingerprints[x]? = none := by
    intro x
    rw [equivalences_loaded]
    simp [Equivalences.empty]
  have start : (loaded options).equivalences.Consistent := by
    rw [equivalences_loaded]
    exact Equivalences.consistent_empty
  have nodup : (Prelude.items.flatMap (·.names)).Nodup := by decide +kernel
  have untouched : Untouched (loaded options) (new options) := untouched_new options
  have entered := consistent_enterAll start nodup fun name _ => nothing name
  rw [← equivalences_new] at entered
  refine ⟨entered, ?_⟩
  intro name
  rw [equivalences_new, fingerprints_enterAll, nothing, lookup_eq_of_bindings untouched.bindings,
    lookup, ← Std.TreeMap.contains_eq_isSome_getElem?]
  by_cases bound : name ∈ Prelude.items.flatMap (·.names)
  · rw [if_pos bound, Std.TreeMap.contains_iff_mem.mpr ((mem_loaded options).mpr bound)]
    rfl
  · rw [if_neg bound, Bool.eq_false_iff.mpr fun found =>
      bound ((mem_loaded options).mp (Std.TreeMap.contains_iff_mem.mp found))]
    rfl

theorem Reachable.mirrored {s : Session} (reachable : Reachable s) : Mirrored s :=
  @Reachable.invariant Mirrored mirrored_new (fun _ _ _ => Mirrored.change) s reachable

theorem mem_equivalents {s : Session} (mirrored : Mirrored s) {t : Term} {name : String} :
    name ∈ s.equivalents t ↔
      s.equivalences.fingerprints[name]? = some t.structureFingerprint := by
  rw [equivalents, Equivalences.mem_names, mirrored.holds_iff]

/-- In every session that can come about the names with a fingerprint are the names that are
bound; a name is in the class of a fingerprint exactly if the fingerprint is its own, so a bound
name is in one class and in no other; no class is empty.  Hence what is equivalent to a term is
a list of bound names, in strict order. -/
theorem table_mirrors {s : Session} (reachable : Reachable s) :
    (∀ name, name ∈ s.equivalences.fingerprints ↔ name ∈ s.bindings) ∧
    (∀ (name : String) (h : Int64),
      (∃ members, s.equivalences.classes[h]? = some members ∧ name ∈ members) ↔
        s.equivalences.fingerprints[name]? = some h) ∧
    (∀ name ∈ s.bindings,
      ∃! h : Int64, ∃ members, s.equivalences.classes[h]? = some members ∧ name ∈ members) ∧
    (∀ (h : Int64) (members : Std.TreeSet String), s.equivalences.classes[h]? = some members →
      members.isEmpty = false) ∧
    ∀ t : Term, (s.equivalents t).Pairwise (· < ·) ∧ (∀ name ∈ s.equivalents t, name ∈ s.names) ∧
      ∀ name, name ∈ s.equivalents t ↔
        s.equivalences.fingerprints[name]? = some t.structureFingerprint := by
  have mirrored := reachable.mirrored
  have same : ∀ name, name ∈ s.equivalences.fingerprints ↔ name ∈ s.bindings := by
    intro name
    rw [Std.TreeMap.mem_iff_isSome_getElem?, mirrored.names, lookup,
      ← Std.TreeMap.mem_iff_isSome_getElem?]
  refine ⟨same, mirrored.holds_iff, ?_, ?_, ?_⟩
  · intro name bound
    obtain ⟨h, found⟩ : ∃ h, s.equivalences.fingerprints[name]? = some h := by
      rw [← same, Std.TreeMap.mem_iff_isSome_getElem?] at bound
      exact Option.isSome_iff_exists.mp bound
    refine ⟨h, (mirrored.holds_iff name h).mpr found, ?_⟩
    intro g holds
    have other := (mirrored.holds_iff name g).mp holds
    rw [found] at other
    exact (Option.some.inj other).symm
  · intro h members found
    exact Std.TreeSet.isEmpty_eq_false_iff_exists_mem.mpr (mirrored.inhabited h members found)
  · intro t
    refine ⟨Equivalences.pairwise_names _ _, ?_, fun name => mem_equivalents mirrored⟩
    intro name member
    have found := (mem_equivalents mirrored).mp member
    rw [names, Std.TreeMap.mem_keys, ← same, Std.TreeMap.mem_iff_isSome_getElem?, found]
    rfl

/-- A name that was defined before what it refers to is in one class. -/
theorem table_mirrors_reference : Reachable (withLateDefinition {}) ∧
    "b" ∈ (withLateDefinition {}).bindings ∧
    ∃! h : Int64, ∃ members, (withLateDefinition {}).equivalences.classes[h]? = some members ∧
      "b" ∈ members := by
  have reachable := reachable_withLateDefinition {}
  obtain ⟨_, _, found, _⟩ := lookup_withLateDefinition {}
  have bound : "b" ∈ (withLateDefinition {}).bindings := by
    rw [Std.TreeMap.mem_iff_isSome_getElem?, show (withLateDefinition {}).bindings["b"]? = _ from
      found]
    rfl
  exact ⟨reachable, bound, (table_mirrors reachable).2.2.1 "b" bound⟩

end Session

end UntypedLambda
