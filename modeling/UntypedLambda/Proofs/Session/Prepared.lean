import UntypedLambda.Proofs.Expansion.Branches
import UntypedLambda.Proofs.Session.Changes
import UntypedLambda.Proofs.Session.Faithful

/-! # What is handed to the reducer

A session reduces a term when it evaluates it, and once more, in silence, when it enters a name
into the equivalence table.  Each time the names in the term have been expanded.  All that is
reduced was put together from terms that one parser has read, one after the other.

Main statement: `handed_prepared`. -/
set_option autoImplicit false

namespace UntypedLambda

namespace Term

/-- A term ready to be reduced, made of what was read while numbers below `next` were given
out. -/
structure Prepared (next : Int) (t : Term) : Prop extends Coherent 0 t where
  numbers : ∀ l ∈ t.binderLabels, 0 < l.2 ∧ l.2 < next
  identifiers : ∀ l ∈ t.labels, IsIdentifier l.1
  unrepeated : t.Unrepeated

end Term

/-- What is expanded of terms that were read one after the other can be reduced. -/
theorem Expansion.prepared_of_visit {ledger : Ledger} {definitions : String → Option Term}
    (resolved : ∀ name d, definitions name = some d → d.Resolved ledger [])
    (identifiers : ∀ name d, definitions name = some d → ∀ l ∈ d.labels, IsIdentifier l.1)
    (stock : Stock definitions) {t e : Term} (termResolved : t.Resolved ledger [])
    (termIdentifiers : ∀ l ∈ t.labels, IsIdentifier l.1) (nodup : t.binderNumbers.Nodup)
    (apart : ∀ name d, definitions name = some d →
      t = d ∨ t.binderNumbers.Disjoint d.binderNumbers)
    {room depth : Nat} (success : (visit definitions room depth t).result = .ok e) :
    e.Prepared ledger.next := by
  have spliced := spliced_of_visit resolved termResolved.spliced success
  have expands := expands_of_visit success
  refine ⟨⟨spliced.numbered, ?_⟩, ?_, ?_, ?_⟩
  · exact (spliced.boundFaithful (by simp)).mono fun _ _ _ faithful => faithful.owned
  · intro l member
    have entered := spliced.entered_binder member
    exact ⟨entered.pos, entered.lt⟩
  · intro l member
    rcases expands.labelsOf member with own | ⟨name, d, _, found, inside⟩
    · exact termIdentifiers l own
    · exact identifiers name d found l inside
  · exact expands.unrepeated stock nodup (expands.acyclic.disjoint apart)

namespace Session

open Term Expansion

/-! ## Definitions that were read one after the other -/

structure Ready (ledger : Ledger) (s : Session) : Prop extends Sound ledger s where
  identifiers : ∀ {name d}, s.lookup name = some d → ∀ l ∈ d.labels, IsIdentifier l.1
  stock : Stock s.lookup

namespace Ready

variable {ledger : Ledger} {s s' : Session}

theorem lt_next (ready : Ready ledger s) {name : String} {d : Term}
    (found : s.lookup name = some d) {id : Int} (member : id ∈ d.binderNumbers) :
    id < s.nextId := by
  obtain ⟨l, inLabels, rfl⟩ := List.mem_map.mp member
  rw [ready.next]
  exact ((ready.defines name d found).spliced.entered_binder inLabels).lt

/-- What is read now shares no number with what was read before. -/
theorem disjoint (ready : Ready ledger s) {high : Int} {t : Term} (read : t.Read s.nextId high)
    {name : String} {d : Term} (found : s.lookup name = some d) :
    t.binderNumbers.Disjoint d.binderNumbers := by
  intro id inTerm inDefinition
  have low := (read.bounds inTerm).1
  have := ready.lt_next found inDefinition
  omega

/-- Definitions may go and numbers may be given out. -/
theorem fewer (ready : Ready ledger s) (numbers : s.nextId ≤ s'.nextId)
    (origin : ∀ name d, s'.lookup name = some d → s.lookup name = some d) :
    ∃ ledger', Ready ledger' s' := by
  have positive : 0 < s'.nextId := Int.lt_of_lt_of_le (ready.next ▸ ledger.pos) numbers
  have grown : ledger.Extends ⟨ledger.nameOf, s'.nextId, positive⟩ :=
    ⟨ready.next ▸ numbers, fun _ _ => rfl⟩
  refine ⟨⟨ledger.nameOf, s'.nextId, positive⟩, ⟨rfl, ?_⟩, ?_, ⟨?_, ?_⟩⟩
  · intro name d found
    exact (ready.defines name d (origin name d found)).extend grown
  · intro name d found
    exact ready.identifiers (origin name d found)
  · intro name d found
    exact ready.stock.nodup (origin name d found)
  · intro name name' d d' found found'
    exact ready.stock.apart (origin name d found) (origin name' d' found')

/-- A term that was just read may become the definition of any names. -/
theorem more (ready : Ready ledger s) {t : Term} {high : Int} (read : t.Read s.nextId high)
    (number : s'.nextId = high)
    (origin : ∀ name d, s'.lookup name = some d → s.lookup name = some d ∨ d = t) :
    ∃ ledger', Ready ledger' s' := by
  obtain ⟨ledger', grown, last, resolved⟩ := read.entered ledger ready.next.symm
  refine ⟨ledger', ⟨number.trans last.symm, ?_⟩, ?_, ⟨?_, ?_⟩⟩
  · intro name d found
    rcases origin name d found with old | rfl
    · exact (ready.defines name d old).extend grown
    · exact resolved
  · intro name d found
    rcases origin name d found with old | rfl
    · exact ready.identifiers old
    · exact read.identifiers
  · intro name d found
    rcases origin name d found with old | rfl
    · exact ready.stock.nodup old
    · exact read.nodup
  · intro name name' d d' found found'
    rcases origin name d found with old | rfl <;> rcases origin name' d' found' with old' | rfl
    · exact ready.stock.apart old old'
    · exact Or.inr (ready.disjoint read old).symm
    · exact Or.inr (ready.disjoint read old')
    · exact Or.inl rfl

theorem change {touched : Option String} (change : Change touched s s')
    (ready : ∃ ledger, Ready ledger s) : ∃ ledger, Ready ledger s' := by
  obtain ⟨ledger, ready⟩ := ready
  cases change with
  | keep bindings _ numbers =>
      apply ready.fewer numbers
      intro name d found
      rwa [lookup_eq_of_bindings bindings] at found
  | @bind _ s' bindings _ name t read =>
      refine ready.more read rfl ?_
      intro name' d found
      rw [lookup_bind, lookup_eq_of_bindings bindings] at found
      split at found
      · exact Or.inr (Option.some.inj found).symm
      · exact Or.inl found
  | @unbind _ name bound =>
      refine ready.fewer (Int.le_refl s.nextId) ?_
      intro name' d found
      rw [lookup_unbind] at found
      split at found
      · cases found
      · exact found

theorem changes (changes : Changes s s') (ready : ∃ ledger, Ready ledger s) :
    ∃ ledger, Ready ledger s' := by
  induction changes with
  | refl => exact ready
  | tail _ change ih =>
      obtain ⟨touched, change⟩ := change
      exact Ready.change change ih

end Ready

/-! ## The start -/

theorem Ready.load {s : Session} (ready : ∃ ledger, Ready ledger s) (item : Prelude.Item) :
    ∃ ledger, Ready ledger (s.load item) := by
  have after := Ready.changes (changes_read s item.source) ready
  obtain ⟨ledger, ready⟩ := ready
  have known := @read_of_read s item.source
  unfold Session.load
  split
  · rename_i e s' read
    rw [read] at after
    exact after
  · rename_i t s' read
    have bindings := (read_keeps s item.source).2
    rw [read] at known bindings
    refine ready.more (known rfl) rfl ?_
    intro name d found
    rw [lookup, getElem?_insertAll, bindings] at found
    split at found
    · exact Or.inr (Option.some.inj found).symm
    · exact Or.inl found

theorem ready_loadAll {s : Session} (items : List Prelude.Item)
    (ready : ∃ ledger, Ready ledger s) : ∃ ledger, Ready ledger (items.foldl Session.load s) := by
  induction items generalizing s with
  | nil => exact ready
  | cons item items ih => exact ih (Ready.load ready item)

theorem ready_empty (options : Options) : ∃ ledger, Ready ledger (empty options) := by
  have nothing : ∀ {name : String} {d : Term}, (empty options).lookup name ≠ some d := by
    intro name d found
    rw [lookup_empty] at found
    cases found
  exact ⟨⟨fun _ => "", 1, by decide⟩, ⟨rfl, fun _ _ found => absurd found nothing⟩,
    fun found => absurd found nothing,
    ⟨fun found => absurd found nothing, fun found => absurd found nothing⟩⟩

/-- The session whose names are entered into the table one after the other. -/
def loaded (options : Options) : Session := Prelude.items.foldl load (empty options)

theorem ready_loaded (options : Options) : ∃ ledger, Ready ledger (loaded options) :=
  ready_loadAll Prelude.items (ready_empty options)

theorem ready_new (options : Options) : ∃ ledger, Ready ledger (new options) := by
  obtain ⟨ledger, ready⟩ := ready_loaded options
  have untouched : Untouched (loaded options) (new options) := untouched_new options
  apply ready.fewer (Int.le_of_eq untouched.nextId.symm)
  intro name d found
  rwa [lookup_eq_of_bindings untouched.bindings] at found

theorem Reachable.ready {s : Session} (reachable : Reachable s) : ∃ ledger, Ready ledger s :=
  @Reachable.invariant (fun s => ∃ ledger, Ready ledger s) ready_new
    (fun _ _ _ change ready => Ready.change change ready) s reachable

/-! ## On the way to the reducer -/

/-- What the reducer is given when `t` is to be reduced: its expansion, unless that fails. -/
def handed (s : Session) (bound : Nat) (t : Term) : Option Term :=
  (Expansion.run s.lookup bound t).result.toOption

theorem handed_eq_some {s : Session} {bound : Nat} {t e : Term} :
    s.handed bound t = some e ↔ (Expansion.run s.lookup bound t).result = .ok e := by
  unfold handed
  cases (Expansion.run s.lookup bound t).result <;> simp [Except.toOption]

theorem normalForm_eq_handed (s : Session) (t : Term) : s.normalForm t =
    ((s.handed Bound.default t).bind fun e =>
      (Reduction.run { bound := s.options.bound } {} e).result.toOption).getD t := by
  unfold normalForm handed
  cases (Expansion.run s.lookup Bound.default t).result with
  | error stop => rfl
  | ok e =>
      simp only [Except.toOption, Option.bind_some]
      cases (Reduction.run { bound := s.options.bound } {} e).result <;> rfl

theorem evaluateTerm_eq_handed {s : Session} {t u : Term} : (s.evaluateTerm t).result = .ok u ↔
    ∃ e, s.handed s.options.bound t = some e ∧
      (Reduction.run s.options.reduction {} e).result = .ok u := by
  simp only [handed_eq_some, evaluateTerm_eq_ok]

/-- A term that the reducer is given, and the parser's next number at that time. -/
structure Handing where
  next : Int
  term : Term

def handedStatement (s : Session) : Statement → Option Term
  | .term t => s.handed s.options.bound t
  | .binding name t => (s.bind name t).handed Bound.default t
  | .command _ => none

/-- Along the statements that the parser has before it. -/
def handedAll (s : Session) (p : Parser) : List Handing :=
  if atLast : p.done then []
  else
    have progress : p.next.2.tokens.length < p.tokens.length :=
      p.length_next_lt (by simpa using atLast)
    ((p.next.1.toOption.join.bind s.handedStatement).map (Handing.mk p.next.2.nextId)).toList
      ++ handedAll (s.execNext p.next.1).2 p.next.2
termination_by p.tokens.length

/-- What can be asked of a session. -/
inductive Call where
  | define (name source : String)
  | exec (source : String)
  | command (c : Command)
  | setOptions (options : Options)
  | evaluate (input : String)

/-- All that is reduced in the course of a call. -/
def handedBy (s : Session) : Call → List Handing
  | .define name source =>
    match s.read source with
    | (.error _, _) => []
    | (.ok t, s) => (((s.bind name t).handed Bound.default t).map (Handing.mk s.nextId)).toList
  | .exec source => s.handedAll ⟨(Token.scan source).tokens, s.nextId⟩
  | .command _ => []
  | .setOptions _ => []
  | .evaluate input =>
    match s.read input with
    | (.error _, _) => []
    | (.ok t, s) => ((s.handed s.options.bound t).map (Handing.mk s.nextId)).toList

/-- While names are entered into the table, as at the start. -/
def handedEntering (s : Session) : List String → List Handing
  | [] => []
  | name :: names =>
    ((s.handed Bound.default (s.bindings.getD name .hole)).map (Handing.mk s.nextId)).toList
      ++ (s.classify name (s.bindings.getD name .hole)).handedEntering names

/-- While a session comes about. -/
def handedNew (options : Options) : List Handing :=
  (loaded options).handedEntering (Prelude.items.flatMap (·.names))

namespace Ready

variable {ledger : Ledger} {s : Session} {bound : Nat} {t e : Term}

theorem prepared_definition (ready : Ready ledger s) {name : String}
    (found : s.lookup name = some t) (given : s.handed bound t = some e) :
    e.Prepared s.nextId := by
  rw [ready.next]
  exact prepared_of_visit ready.defines (fun _ _ => ready.identifiers) ready.stock
    (ready.defines name t found) (ready.identifiers found) (ready.stock.nodup found)
    (fun _ _ found' => ready.stock.apart found found') (handed_eq_some.mp given)

theorem prepared_read (ready : Ready ledger s) {high : Int} (read : t.Read s.nextId high)
    (given : s.handed bound t = some e) : e.Prepared high := by
  obtain ⟨ledger', grown, last, resolved⟩ := read.entered ledger ready.next.symm
  rw [← last]
  exact prepared_of_visit (ready.defines.extend grown) (fun _ _ => ready.identifiers) ready.stock
    resolved read.identifiers read.nodup
    (fun _ _ found => Or.inr (ready.disjoint read found)) (handed_eq_some.mp given)

/-- A name that is bound to what was just read is the definition that is reduced. -/
theorem prepared_bind (ready : Ready ledger s) {s' : Session}
    (bindings : s'.bindings = s.bindings) (equivalences : s'.equivalences = s.equivalences)
    {name : String} (read : t.Read s.nextId s'.nextId)
    (given : (s'.bind name t).handed bound t = some e) : e.Prepared s'.nextId := by
  obtain ⟨ledger', after⟩ := Ready.change (.bind bindings equivalences name read) ⟨ledger, ready⟩
  have found : (s'.bind name t).lookup name = some t := by rw [lookup_bind, if_pos rfl]
  exact after.prepared_definition found given

theorem prepared_statement {before after : Int} {st : Statement}
    (ready : Ready ledger { s with nextId := before })
    (read : ∀ t, st.terms = [t] → t.Read before after)
    (given : s.handedStatement st = some e) : e.Prepared after := by
  cases st with
  | term t => exact ready.prepared_read (read t rfl) given
  | binding name t =>
      exact @Ready.prepared_bind _ _ _ _ _ ready { s with nextId := after } rfl rfl name
        (read t rfl) given
  | command c => cases given

theorem prepared_all {p : Parser} (identifiers : Parser.Identifiers p.tokens)
    (ready : ∃ ledger, Ready ledger { s with nextId := p.nextId }) :
    ∀ h ∈ s.handedAll p, h.term.Prepared h.next := by
  induction s, p using Session.execAll.induct with
  | case1 s p atLast =>
      rw [handedAll, dif_pos atLast]
      intro h member
      cases member
  | case2 s p atLast progress reply s' executed _ _ _ ih =>
      have after := Ready.changes (@changes_execNext s p identifiers) ready
      obtain ⟨ledger, ready⟩ := ready
      rw [handedAll, dif_neg atLast]
      rw [executed] at after ⊢
      intro h member
      rcases List.mem_append.mp member with first | later
      · simp only [Option.mem_toList, Option.map_eq_some_iff, Option.bind_eq_some_iff] at first
        obtain ⟨e, ⟨st, found, given⟩, rfl⟩ := first
        have found : p.next.1 = .ok (some st) := by
          cases result : p.next.1 with
          | error e => rw [result] at found; cases found
          | ok st' =>
              rw [result] at found
              exact congrArg Except.ok found
        exact ready.prepared_statement (fun t => Parser.read_next identifiers found) given
      · exact ih (identifiers.suffix p.next_suffix) after h later

theorem prepared_entering (ready : Ready ledger s) (names : List String) :
    ∀ h ∈ s.handedEntering names, h.term.Prepared h.next := by
  induction names generalizing s with
  | nil =>
      intro h member
      cases member
  | cons name names ih =>
      intro h member
      rcases List.mem_append.mp member with first | later
      · simp only [Option.mem_toList, Option.map_eq_some_iff] at first
        obtain ⟨e, given, rfl⟩ := first
        cases found : s.lookup name with
        | none =>
            have missing : s.bindings.getD name .hole = .hole := by
              rw [Std.TreeMap.getD_eq_getD_getElem?, show s.bindings[name]? = none from found]
              rfl
            rw [missing] at given
            cases given
        | some t =>
            have same : s.bindings.getD name .hole = t := by
              rw [Std.TreeMap.getD_eq_getD_getElem?, show s.bindings[name]? = some t from found]
              rfl
            rw [same] at given
            exact ready.prepared_definition found given
      · have after : Ready ledger (s.classify name (s.bindings.getD name .hole)) :=
          ⟨⟨ready.next, ready.defines⟩, ready.identifiers, ready.stock⟩
        exact ih after h later

theorem prepared_call (ready : Ready ledger s) (c : Call) :
    ∀ h ∈ s.handedBy c, h.term.Prepared h.next := by
  cases c with
  | define name source =>
      have known := @read_of_read s source
      have bindings := (read_keeps s source).2
      have equivalences := equivalences_read s source
      intro h member
      simp only [handedBy] at member
      split at member
      · cases member
      · rename_i t s' read
        rw [read] at known bindings equivalences
        simp only [Option.mem_toList, Option.map_eq_some_iff] at member
        obtain ⟨e, given, rfl⟩ := member
        exact ready.prepared_bind bindings equivalences (known rfl) given
  | exec source =>
      exact Ready.prepared_all (Parser.identifiers_scan source) ⟨ledger, ready⟩
  | command c =>
      intro h member
      cases member
  | setOptions options =>
      intro h member
      cases member
  | evaluate input =>
      have known := @read_of_read s input
      obtain ⟨options, bindings⟩ := read_keeps s input
      intro h member
      simp only [handedBy] at member
      split at member
      · cases member
      · rename_i t s' read
        rw [read] at known bindings
        simp only [Option.mem_toList, Option.map_eq_some_iff] at member
        obtain ⟨e, given, rfl⟩ := member
        rw [handed, funext (lookup_eq_of_bindings bindings)] at given
        exact ready.prepared_read (known rfl) given

end Ready

/-- Every term that is reduced while a session comes about, or in the course of any call on a
session that can come about, meets what a reduction asks for: nothing is absent, binders have
numbers that were given out before, every other number is that of a binder around, equal numbers
go with equal names, all names are identifiers, and no number comes twice on a branch.  What is
handed over is all that normal forms and evaluations depend on. -/
theorem handed_prepared :
    (∀ options : Options, ∀ h ∈ handedNew options, h.term.Prepared h.next) ∧
    (∀ s : Session, Reachable s → ∀ c : Call, ∀ h ∈ s.handedBy c, h.term.Prepared h.next) ∧
    (∀ (s : Session) (t : Term), s.normalForm t = ((s.handed Bound.default t).bind fun e =>
      (Reduction.run { bound := s.options.bound } {} e).result.toOption).getD t) ∧
    ∀ (s : Session) (t u : Term), (s.evaluateTerm t).result = .ok u ↔
      ∃ e, s.handed s.options.bound t = some e ∧
        (Reduction.run s.options.reduction {} e).result = .ok u := by
  refine ⟨?_, ?_, normalForm_eq_handed, fun s t u => evaluateTerm_eq_handed⟩
  · intro options
    obtain ⟨ledger, ready⟩ := ready_loaded options
    exact ready.prepared_entering _
  · intro s reachable c
    obtain ⟨ledger, ready⟩ := reachable.ready
    exact ready.prepared_call c

/-! ## Copies of one definition -/

theorem mem_handedBy_evaluate {s : Session} {input : String} {t e : Term}
    (success : (s.read input).1 = .ok t) (given : s.handed s.options.bound t = some e) :
    ⟨(s.read input).2.nextId, e⟩ ∈ s.handedBy (.evaluate input) := by
  obtain ⟨options, bindings⟩ := read_keeps s input
  rw [handed, ← funext (lookup_eq_of_bindings bindings), ← options] at given
  simp only [handedBy]
  split
  · rename_i read
    rw [read] at success
    cases success
  · rename_i t' s' read
    rw [read] at success given ⊢
    cases success
    simp only [Option.mem_toList, Option.map_eq_some_iff]
    exact ⟨e, given, rfl⟩

theorem read_b_b (s : Session) :
    (s.read "b b").1 = .ok (.app (.var "b" 0 false) (.var "b" 0 false)) := by
  have tokens : (Token.scan "b b").tokens =
      [⟨.ident, "b", 1, 1, 1⟩, ⟨.ident, "b", 1, 3, 1⟩, ⟨.newline, "<newline>", 1, 4, 0⟩,
        ⟨.eof, "", 1, 4, 0⟩] := by
    decide +kernel
  rw [read_eq, tokens]
  rfl

theorem expansion_copies {definitions : String → Option Term} {id : Int}
    (foundA : definitions "a" = some (.abs "x" id (.var "x" id false)))
    (foundB : definitions "b" = some (.var "a" 0 false)) (missing : definitions "x" = none)
    {bound : Nat} (enough : 4 ≤ bound) :
    (Expansion.run definitions bound (.app (.var "b" 0 false) (.var "b" 0 false))).result =
      .ok (.app (.abs "x" id (.var "x" id false)) (.abs "x" id (.var "x" id false))) := by
  obtain ⟨room, rfl⟩ := Nat.exists_eq_add_of_le' enough
  simp [Expansion.run, Expansion.visit, foundA, foundB, missing, Run.map, Run.inside, Run.done,
    Run.andThen, Except.map]

/-- Two copies of the definition that `b` refers to are side by side in what is reduced. -/
theorem handed_prepared_copies : Reachable (withLateDefinition {}) ∧
    ∃ h ∈ (withLateDefinition {}).handedBy (.evaluate "b b"),
      h.term.text = "((λx. x) (λx. x))" ∧ h.term.Prepared h.next := by
  have reachable := reachable_withLateDefinition {}
  obtain ⟨id, foundA, foundB, missing⟩ := lookup_withLateDefinition {}
  have given : (withLateDefinition {}).handed (withLateDefinition {}).options.bound
      (.app (.var "b" 0 false) (.var "b" 0 false)) =
        some (.app (.abs "x" id (.var "x" id false)) (.abs "x" id (.var "x" id false))) := by
    rw [handed_eq_some, options_withLateDefinition]
    exact expansion_copies foundA foundB missing (by decide)
  have member := mem_handedBy_evaluate (read_b_b (withLateDefinition {})) given
  exact ⟨reachable, _, member, rfl, handed_prepared.2.1 _ reachable _ _ member⟩

end Session

end UntypedLambda
