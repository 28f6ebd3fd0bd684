import UntypedLambda.Proofs.Session.Prepared
import UntypedLambda.Proofs.Term.Renumbering

/-! # What the environment shows

Names are shown on one line with the definition of the first of them, if their definitions have
the same value fingerprint.  Definitions that are printed alike have the same value fingerprint,
but others may have it as well, and then a name is shown next to a definition that is not its own.

Main statement: `environment_shows`. -/
set_option autoImplicit false

namespace UntypedLambda

/-! ## Definitions that are printed alike -/

/-- A term that was read is a tree of names, numbers apart. -/
theorem Term.Resolved.exists_named {ledger : Ledger} {scope : List Label} {t : Term}
    (resolved : t.Resolved ledger scope) : ∃ e : Named, e.names = t.labels.map Prod.fst ∧
      ∀ scope' next, t.renumber (fun _ => 0) = (e.resolve scope' next).renumber fun _ => 0 := by
  induction resolved with
  | @var scope name word => exact ⟨.var name, rfl, fun _ _ => rfl⟩
  | @abs scope name id body entered inside ih =>
      obtain ⟨e, names, same⟩ := ih
      refine ⟨.abs name e, congrArg (name :: ·) names, fun scope' next => ?_⟩
      rw [Term.renumber, same ((name, next) :: scope') (next + 1)]
      rfl
  | @app scope fn arg left right ihf iha =>
      obtain ⟨f, fnNames, sameFn⟩ := ihf
      obtain ⟨a, argNames, sameArg⟩ := iha
      refine ⟨.app f a, ?_, fun scope' next => ?_⟩
      · simp [Named.names, Term.labelsOf, fnNames, argNames]
      · rw [Term.renumber, sameFn scope' next, sameArg scope' (next + f.binders)]
        rfl

/-- Trees are read back from their text. -/
theorem Named.eq_of_text_eq {e e' : Named} (identifiers : ∀ name ∈ e.names, IsIdentifier name)
    (identifiers' : ∀ name ∈ e'.names, IsIdentifier name)
    (alike : (e.resolve [] 1).text = (e'.resolve [] 1).text) : e = e' := by
  obtain ⟨w, behind, newline, eof, canonical, _, _, scanned⟩ := scan_text identifiers [] 1
  obtain ⟨w', behind', newline', eof', canonical', _, _, scanned'⟩ := scan_text identifiers' [] 1
  rw [alike, scanned'] at scanned
  have tokens : w' ++ [newline', eof'] = w ++ [newline, eof] := congrArg (·.tokens) scanned
  have same : w' = w := (List.append_inj' tokens rfl).1
  exact Reading.eq_of_canonical canonical (same ▸ canonical')

theorem Term.Resolved.valueFingerprint_eq {ledger : Ledger} {t u : Term}
    (first : t.Resolved ledger []) (second : u.Resolved ledger [])
    (identifiers : ∀ l ∈ t.labels, IsIdentifier l.1)
    (identifiers' : ∀ l ∈ u.labels, IsIdentifier l.1) (alike : t.text = u.text) :
    t.valueFingerprint = u.valueFingerprint := by
  obtain ⟨e, names, same⟩ := first.exists_named
  obtain ⟨e', names', same'⟩ := second.exists_named
  have text : (e.resolve [] 1).text = (e'.resolve [] 1).text := by
    rw [← Term.text_renumber (fun _ => 0), ← same, Term.text_renumber,
      ← Term.text_renumber (fun _ => 0) (e'.resolve [] 1), ← same', Term.text_renumber, alike]
  have tree : e = e' := by
    refine Named.eq_of_text_eq (fun name member => ?_) (fun name member => ?_) text
    · rw [names] at member
      obtain ⟨l, inside, rfl⟩ := List.mem_map.mp member
      exact identifiers l inside
    · rw [names'] at member
      obtain ⟨l, inside, rfl⟩ := List.mem_map.mp member
      exact identifiers' l inside
  rw [← Term.valueFingerprint_renumber (fun _ => 0) t, same [] 1, tree, ← same' [] 1,
    Term.valueFingerprint_renumber]

namespace Session

/-! ## Lines -/

/-- The definitions with that value fingerprint, in the order of their names. -/
def sharing (s : Session) (h : Int64) : List (String × Term) :=
  s.bindings.toList.filter (·.2.valueFingerprint == h)

theorem mem_sharing {s : Session} {h : Int64} {b : String × Term} :
    b ∈ s.sharing h ↔ s.lookup b.1 = some b.2 ∧ b.2.valueFingerprint = h := by
  rw [sharing, List.mem_filter, beq_iff_eq, lookup,
    ← Std.TreeMap.mem_toList_iff_getElem?_eq_some]

theorem aliases_eq (s : Session) : s.aliases =
    ((s.bindings.toList.map (·.2.valueFingerprint)).eraseDups).filterMap fun h =>
      match s.sharing h with
      | [] => none
      | first :: rest => some ⟨(first :: rest).map (·.1), first.2⟩ := by
  let entry : String × Term → String × Term × Int64 := fun b => (b.1, b.2, b.2.valueFingerprint)
  have members : ∀ h, (s.bindings.toList.map entry).filter (·.2.2 == h) =
      (s.sharing h).map entry := by
    intro h
    rw [List.filter_map]
    rfl
  unfold aliases
  dsimp only
  rw [List.map_map]
  congr 1
  funext h
  rw [members]
  cases s.sharing h with
  | nil => rfl
  | cons first rest => simp [entry, Function.comp_def]

theorem mem_aliases {s : Session} {a : Aliases} : a ∈ s.aliases ↔ ∃ first rest,
    s.sharing first.2.valueFingerprint = first :: rest ∧
      a = ⟨(first :: rest).map (·.1), first.2⟩ := by
  rw [aliases_eq, List.mem_filterMap]
  constructor
  · rintro ⟨h, _, found⟩
    cases group : s.sharing h with
    | nil =>
        rw [group] at found
        cases found
    | cons first rest =>
        rw [group] at found
        cases found
        have own : first ∈ s.sharing h := group ▸ List.mem_cons_self
        rw [← (mem_sharing.mp own).2] at group
        exact ⟨first, rest, group, rfl⟩
  · rintro ⟨first, rest, group, rfl⟩
    have own : first ∈ s.sharing first.2.valueFingerprint := group ▸ List.mem_cons_self
    refine ⟨first.2.valueFingerprint, ?_, by rw [group]⟩
    rw [List.mem_eraseDups]
    exact List.mem_map_of_mem (List.mem_filter.mp own).1

/-- Every bound name is shown, on the line of its value fingerprint. -/
theorem exists_alias {s : Session} {name : String} {t : Term} (found : s.lookup name = some t) :
    ∃ a ∈ s.aliases, (∀ name' u, s.lookup name' = some u →
      u.valueFingerprint = t.valueFingerprint → name' ∈ a.names) := by
  have listed : ∀ name' u, s.lookup name' = some u → u.valueFingerprint = t.valueFingerprint →
      (name', u) ∈ s.sharing t.valueFingerprint := fun _ _ found same =>
    mem_sharing.mpr ⟨found, same⟩
  cases group : s.sharing t.valueFingerprint with
  | nil =>
      have own := listed name t found rfl
      rw [group] at own
      cases own
  | cons first rest =>
      have own : first ∈ s.sharing t.valueFingerprint := group ▸ List.mem_cons_self
      refine ⟨⟨(first :: rest).map (·.1), first.2⟩, mem_aliases.mpr ⟨first, rest, ?_, rfl⟩, ?_⟩
      · rw [(mem_sharing.mp own).2, group]
      · intro name' u found' same
        have member := listed name' u found' same
        rw [group] at member
        exact List.mem_map_of_mem member

/-- What is shown next to a name is a definition with the same value fingerprint. -/
theorem lookup_of_mem_aliases {s : Session} {a : Aliases} (line : a ∈ s.aliases) {name : String}
    (member : name ∈ a.names) : ∃ t, s.lookup name = some t ∧
      t.valueFingerprint = a.term.valueFingerprint := by
  obtain ⟨first, rest, group, rfl⟩ := mem_aliases.mp line
  obtain ⟨b, inside, rfl⟩ := List.mem_map.mp member
  rw [← group] at inside
  exact ⟨b.2, mem_sharing.mp inside⟩

/-- The definition that is shown is that of the first name on the line. -/
theorem lookup_head_of_mem_aliases {s : Session} {a : Aliases} (line : a ∈ s.aliases) :
    ∃ name, a.names.head? = some name ∧ s.lookup name = some a.term := by
  obtain ⟨first, rest, group, rfl⟩ := mem_aliases.mp line
  have own : first ∈ s.sharing first.2.valueFingerprint := group ▸ List.mem_cons_self
  exact ⟨first.1, rfl, (mem_sharing.mp own).1⟩

/-- Two names are on one line. -/
def OnOneLine (s : Session) (name name' : String) : Prop :=
  ∃ a ∈ s.aliases, name ∈ a.names ∧ name' ∈ a.names

theorem onOneLine_iff {s : Session} {name name' : String} {t u : Term}
    (found : s.lookup name = some t) (found' : s.lookup name' = some u) :
    s.OnOneLine name name' ↔ t.valueFingerprint = u.valueFingerprint := by
  constructor
  · rintro ⟨a, line, member, member'⟩
    obtain ⟨t', same, first⟩ := lookup_of_mem_aliases line member
    obtain ⟨u', same', second⟩ := lookup_of_mem_aliases line member'
    rw [found] at same
    rw [found'] at same'
    cases same
    cases same'
    rw [first, second]
  · intro shared
    obtain ⟨a, line, all⟩ := exists_alias found
    exact ⟨a, line, all name t found rfl, all name' u found' shared.symm⟩

/-! ## The result -/

/-- Of a session that has come about, every bound name is shown and nothing else, next to the
definition of the first name on its line.  Two names share a line exactly if their definitions
have the same value fingerprint, as definitions that are printed alike have.  So what is shown
next to each name is its own definition exactly if no two definitions that are printed
differently have the same value fingerprint. -/
theorem environment_shows {s : Session} (reachable : Reachable s) :
    (∀ argument, (s.command (.env argument)).1 =
      "Current bindings:\n" ++ String.join (s.aliases.map Aliases.line)) ∧
    (∀ name, name ∈ s.bindings ↔ ∃ a ∈ s.aliases, name ∈ a.names) ∧
    (∀ a ∈ s.aliases, ∃ name, a.names.head? = some name ∧ s.lookup name = some a.term) ∧
    (∀ name name' t u, s.lookup name = some t → s.lookup name' = some u →
      (s.OnOneLine name name' ↔ t.valueFingerprint = u.valueFingerprint) ∧
      (t.text = u.text → s.OnOneLine name name')) ∧
    ((∀ a ∈ s.aliases, ∀ name ∈ a.names, ∃ t, s.lookup name = some t ∧ t.text = a.term.text) ↔
      ∀ name name' t u, s.lookup name = some t → s.lookup name' = some u →
        t.valueFingerprint = u.valueFingerprint → t.text = u.text) := by
  obtain ⟨ledger, ready⟩ := reachable.ready
  refine ⟨fun _ => rfl, fun name => ⟨fun bound => ?_, ?_⟩, fun a => lookup_head_of_mem_aliases,
    fun name name' t u found found' => ⟨onOneLine_iff found found', fun alike => ?_⟩, ?_, ?_⟩
  · rw [Std.TreeMap.mem_iff_isSome_getElem?, Option.isSome_iff_exists] at bound
    obtain ⟨t, found⟩ := bound
    obtain ⟨a, line, all⟩ := exists_alias found
    exact ⟨a, line, all name t found rfl⟩
  · rintro ⟨a, line, member⟩
    obtain ⟨t, found, _⟩ := lookup_of_mem_aliases line member
    rw [Std.TreeMap.mem_iff_isSome_getElem?, Option.isSome_iff_exists]
    exact ⟨t, found⟩
  · exact (onOneLine_iff found found').mpr ((ready.defines name t found).valueFingerprint_eq
      (ready.defines name' u found') (ready.identifiers found) (ready.identifiers found') alike)
  · intro own name name' t u found found' shared
    obtain ⟨a, line, member, member'⟩ := (onOneLine_iff found found').mpr shared
    obtain ⟨t', same, text⟩ := own a line name member
    obtain ⟨u', same', text'⟩ := own a line name' member'
    rw [found] at same
    rw [found'] at same'
    cases same
    cases same'
    rw [text, text']
  · intro apart a line name member
    obtain ⟨t, found, shared⟩ := lookup_of_mem_aliases line member
    obtain ⟨first, _, shown⟩ := lookup_head_of_mem_aliases line
    exact ⟨t, found, apart name first t a.term found shown shared⟩

/-! ## Definitions that share a fingerprint by chance -/

theorem read_an (s : Session) : (s.read "an").1 = .ok (.var "an" 0 false) := by
  have tokens : (Token.scan "an").tokens =
      [⟨.ident, "an", 1, 1, 2⟩, ⟨.newline, "<newline>", 1, 3, 0⟩, ⟨.eof, "", 1, 3, 0⟩] := by
    decide +kernel
  rw [read_eq, tokens]
  rfl

theorem read_c0 (s : Session) : (s.read "c0").1 = .ok (.var "c0" 0 false) := by
  have tokens : (Token.scan "c0").tokens =
      [⟨.ident, "c0", 1, 1, 2⟩, ⟨.newline, "<newline>", 1, 3, 0⟩, ⟨.eof, "", 1, 3, 0⟩] := by
    decide +kernel
  rw [read_eq, tokens]
  rfl

/-- The session after `p = an` and then `q = c0`. -/
def colliding : Session := (((new {}).define "p" "an").2.define "q" "c0").2

theorem lookup_colliding : colliding.lookup "p" = some (.var "an" 0 false) ∧
    colliding.lookup "q" = some (.var "c0" 0 false) := by
  obtain ⟨early, _, _, _, _, defined⟩ := define_of_read (read_an (new {})) "p"
  obtain ⟨late, _, bindings, _, _, defined'⟩ :=
    define_of_read (read_c0 ((new {}).define "p" "an").2) "q"
  rw [colliding, defined']
  constructor
  · rw [lookup_bind, if_neg (by decide), lookup_eq_of_bindings bindings, defined, lookup_bind,
      if_pos rfl]
  · rw [lookup_bind, if_pos rfl]

theorem reachable_colliding : Reachable colliding :=
  .define (.define (.new {}) "p" "an") "q" "c0"

/-- As numbers, the texts `an` and `c0` are the same. -/
theorem fingerprint_colliding : (Term.var "an" 0 false).valueFingerprint =
    (Term.var "c0" 0 false).valueFingerprint := by
  decide +kernel

theorem environment_shows_colliding : Reachable colliding ∧ colliding.OnOneLine "p" "q" := by
  obtain ⟨_, _, _, lines, _⟩ := environment_shows reachable_colliding
  obtain ⟨p, q⟩ := lookup_colliding
  exact ⟨reachable_colliding, (lines "p" "q" _ _ p q).1.mpr fingerprint_colliding⟩

/-- Two names share a line though their definitions are not printed alike, so one of them is
shown next to a definition that is not its own. -/
theorem shows_another_definition : Reachable colliding ∧ colliding.OnOneLine "p" "q" ∧
    colliding.lookup "p" = some (.var "an" 0 false) ∧
    colliding.lookup "q" = some (.var "c0" 0 false) ∧
    ¬ ∀ a ∈ colliding.aliases, ∀ name ∈ a.names, ∀ t, colliding.lookup name = some t →
      t.text = a.term.text := by
  obtain ⟨p, q⟩ := lookup_colliding
  have shared := (onOneLine_iff p q).mpr fingerprint_colliding
  refine ⟨reachable_colliding, shared, p, q, fun own => ?_⟩
  obtain ⟨a, line, first, second⟩ := shared
  have text : "an" = a.term.text := own a line "p" first _ p
  have text' : "c0" = a.term.text := own a line "q" second _ q
  exact absurd (text.trans text'.symm) (by decide)

end Session

end UntypedLambda
