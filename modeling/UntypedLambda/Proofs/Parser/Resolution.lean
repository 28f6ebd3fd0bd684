import UntypedLambda.Parser
import UntypedLambda.Proofs.Term.Scope
import UntypedLambda.Proofs.Token.Word

/-! # Resolution of names

A parser numbers the binders it reads and gives every variable the number of the nearest binder
of its name.  The ledger says which name went with which number; it only grows, over all the
texts that are read one after the other, and this is why numbers determine names.

Main statements: `Reading.run_resolves`, `Parser.parseTerm_resolves`, `Parser.next_resolves`. -/
set_option autoImplicit false

namespace UntypedLambda

/-! ## The ledger -/

/-- The names of the binders numbered so far, which are those with a number below `next`. -/
structure Ledger where
  nameOf : Int → String
  next : Int
  pos : 0 < next

namespace Ledger

structure Entered (ledger : Ledger) (l : Label) : Prop where
  pos : 0 < l.2
  lt : l.2 < ledger.next
  name : ledger.nameOf l.2 = l.1
  word : IsWord l.1

/-- Entries are added and none is changed. -/
structure Extends (old new : Ledger) : Prop where
  next_le : old.next ≤ new.next
  nameOf_eq : ∀ id < old.next, new.nameOf id = old.nameOf id

theorem Extends.refl (ledger : Ledger) : ledger.Extends ledger :=
  ⟨Int.le_refl _, fun _ _ => rfl⟩

theorem Extends.trans {a b c : Ledger} (first : a.Extends b) (second : b.Extends c) :
    a.Extends c where
  next_le := Int.le_trans first.next_le second.next_le
  nameOf_eq := by
    intro id lt
    rw [second.nameOf_eq id (Int.lt_of_lt_of_le lt first.next_le), first.nameOf_eq id lt]

theorem Entered.extend {old new : Ledger} {l : Label} (entered : old.Entered l)
    (grown : old.Extends new) : new.Entered l where
  pos := entered.pos
  lt := Int.lt_of_lt_of_le entered.lt grown.next_le
  name := by rw [grown.nameOf_eq l.2 entered.lt, entered.name]
  word := entered.word

theorem Entered.ne_zero {ledger : Ledger} {l : Label} (entered : ledger.Entered l) : l.2 ≠ 0 := by
  have := entered.pos
  omega

/-- Numbers determine names. -/
theorem Entered.name_eq {ledger : Ledger} {l m : Label} (left : ledger.Entered l)
    (right : ledger.Entered m) (same : l.2 = m.2) : l.1 = m.1 := by
  rw [← left.name, ← right.name, same]

def enter (ledger : Ledger) (names : List String) : Ledger where
  nameOf := fun id =>
    if id < ledger.next then ledger.nameOf id else names.getD (id - ledger.next).toNat ""
  next := ledger.next + names.length
  pos := by
    have := ledger.pos
    omega

theorem extends_enter (ledger : Ledger) (names : List String) :
    ledger.Extends (ledger.enter names) where
  next_le := by
    simp only [enter]
    omega
  nameOf_eq := fun id lt => if_pos lt

theorem entered_enter {ledger : Ledger} {names : List String} {i : Nat} {name : String}
    (found : names[i]? = some name) (word : IsWord name) :
    (ledger.enter names).Entered (name, ledger.next + i) := by
  have positive := ledger.pos
  have inside : i < names.length := (List.getElem?_eq_some_iff.mp found).1
  refine ⟨?_, ?_, ?_, word⟩
  · show 0 < ledger.next + i
    omega
  · show ledger.next + i < ledger.next + names.length
    omega
  · have notOld : ¬ ledger.next + (i : Int) < ledger.next := by omega
    have index : (ledger.next + (i : Int) - ledger.next).toNat = i := by omega
    simp only [enter]
    rw [if_neg notOld, index, List.getD_eq_getElem?_getD, found]
    rfl

end Ledger

/-! ## Resolved terms -/

namespace Term

/-- Read below the binders `scope`: all binders are in the ledger, and every variable has the
number of the nearest binder of its name, or zero if there is none. -/
inductive Resolved (ledger : Ledger) : List Label → Term → Prop where
  | var (scope : List Label) {name : String} (word : IsWord name) :
      Resolved ledger scope (.var name ((scope.lookup name).getD 0) false)
  | abs {scope : List Label} {name : String} {id : Int} {body : Term}
      (entered : ledger.Entered (name, id)) (inside : Resolved ledger ((name, id) :: scope) body) :
      Resolved ledger scope (.abs name id body)
  | app {scope : List Label} {fn arg : Term} (left : Resolved ledger scope fn)
      (right : Resolved ledger scope arg) : Resolved ledger scope (.app fn arg)

theorem Resolved.extend {old new : Ledger} {scope : List Label} {t : Term}
    (resolved : t.Resolved old scope) (grown : old.Extends new) : t.Resolved new scope := by
  induction resolved with
  | var scope word => exact .var scope word
  | abs entered _ ih => exact .abs (entered.extend grown) ih
  | app _ _ ihf iha => exact .app ihf iha

theorem Resolved.applied {ledger : Ledger} {scope : List Label} {head : Option Term} {t : Term}
    (before : ∀ fn ∈ head, fn.Resolved ledger scope) (resolved : t.Resolved ledger scope) :
    (Term.applied head t).Resolved ledger scope := by
  cases head with
  | none => exact resolved
  | some fn => exact .app (before fn rfl) resolved

end Term

/-! ## Reading one term -/

namespace Reading

open Term

def scope (frames : List Frame) : List Label := frames.flatMap Frame.binders

theorem resolved_wrap {ledger : Ledger} {outer : List Label} {binders : List Binder} {t : Term}
    (entered : ∀ b ∈ binders, ledger.Entered b) (resolved : t.Resolved ledger (binders ++ outer)) :
    (wrap binders t).Resolved ledger outer := by
  induction binders generalizing t with
  | nil => exact resolved
  | cons b binders ih =>
      have first : ledger.Entered b := entered b List.mem_cons_self
      have rest : ∀ b ∈ binders, ledger.Entered b :=
        fun b member => entered b (List.mem_cons_of_mem _ member)
      exact ih rest (.abs first resolved)

/-- What has been begun is resolved, each part below the binders around it. -/
inductive Opened (ledger : Ledger) : List Frame → Prop where
  | nil : Opened ledger []
  | group {head : Option Term} {frames : List Frame}
      (before : ∀ t ∈ head, t.Resolved ledger (scope frames)) (rest : Opened ledger frames) :
      Opened ledger (.group head :: frames)
  | lambda {head : Option Term} {binders : List Binder} {frames : List Frame}
      (before : ∀ t ∈ head, t.Resolved ledger (scope frames))
      (entered : ∀ b ∈ binders, ledger.Entered b) (rest : Opened ledger frames) :
      Opened ledger (.lambda head binders :: frames)

theorem Opened.extend {old new : Ledger} {frames : List Frame} (opened : Opened old frames)
    (grown : old.Extends new) : Opened new frames := by
  induction opened with
  | nil => exact .nil
  | group before _ ih => exact .group (fun t member => (before t member).extend grown) ih
  | lambda before entered _ ih =>
      exact .lambda (fun t member => (before t member).extend grown)
        (fun b member => (entered b member).extend grown) ih

theorem Opened.close {ledger : Ledger} {frames frames' : List Frame} {t t' : Term}
    (opened : Opened ledger frames) (resolved : t.Resolved ledger (scope frames))
    (closed : close frames t = some (frames', t')) :
    Opened ledger frames' ∧ t'.Resolved ledger (scope frames') := by
  induction opened generalizing t with
  | nil => cases closed
  | group before rest _ =>
      cases closed
      exact ⟨rest, resolved.applied before⟩
  | lambda before entered _ ih => exact ih ((resolved_wrap entered resolved).applied before) closed

theorem Opened.whole {ledger : Ledger} {frames : List Frame} {t t' : Term}
    (opened : Opened ledger frames) (resolved : t.Resolved ledger (scope frames))
    (ended : whole frames t = some t') : t'.Resolved ledger [] := by
  induction opened generalizing t with
  | nil =>
      cases ended
      exact resolved
  | group => cases ended
  | lambda before entered _ ih => exact ih ((resolved_wrap entered resolved).applied before) ended

theorem entered_number {ledger : Ledger} {names : List String}
    (words : ∀ name ∈ names, IsWord name) {b : Binder} (member : b ∈ number ledger.next names) :
    (ledger.enter names.reverse).Entered b := by
  simp only [number, List.mem_reverse, List.mem_map] at member
  obtain ⟨⟨name, i⟩, indexed, rfl⟩ := member
  have found : names.reverse[i]? = some name := List.mk_mem_zipIdx_iff_getElem?.mp indexed
  have inNames : name ∈ names := List.mem_reverse.mp (List.mem_of_getElem? found)
  exact Ledger.entered_enter found (words name inNames)

def PhaseResolved (ledger : Ledger) (outer : List Label) : Phase → Prop
  | .atom head => ∀ t ∈ head, t.Resolved ledger outer
  | .params head names =>
    (∀ t ∈ head, t.Resolved ledger outer) ∧ ∀ name ∈ names, IsWord name

/-- A reading that can come about, with the numbers that it has given out. -/
structure Sound (ledger : Ledger) (r : Reading) : Prop where
  next : r.nextId = ledger.next
  opened : Opened ledger r.frames
  phase : PhaseResolved ledger (scope r.frames) r.phase

theorem sound_start (ledger : Ledger) : Sound ledger (start ledger.next) where
  next := rfl
  opened := .nil
  phase := fun _ member => nomatch member

def SoundMove (ledger : Ledger) : Move → Prop
  | .shift r => ∃ ledger', ledger.Extends ledger' ∧ Sound ledger' r
  | .accept t => t.Resolved ledger []
  | .reject _ => True

theorem soundMove_finish {ledger : Ledger} {frames : List Frame} {t : Term}
    (opened : Opened ledger frames) (resolved : t.Resolved ledger (scope frames)) :
    SoundMove ledger (finish frames t) := by
  unfold finish
  split
  · rename_i ended
    exact opened.whole resolved ended
  · trivial

theorem Sound.step {ledger : Ledger} {r : Reading} {token : Token} (sound : Sound ledger r)
    (word : token.kind = .ident → IsWord token.lexeme) : SoundMove ledger (r.step token) := by
  obtain ⟨next, opened, phase⟩ := sound
  fun_cases Reading.step r token with
  | case1 head kind current =>
      rw [current] at phase
      exact ⟨ledger, .refl ledger, next, .group phase opened, fun _ member => nomatch member⟩
  | case2 head kind current v =>
      rw [current] at phase
      have resolved := Resolved.applied phase (.var (scope r.frames) (word kind))
      refine ⟨ledger, .refl ledger, next, opened, ?_⟩
      intro t member
      cases member
      exact resolved
  | case3 head kind current =>
      rw [current] at phase
      exact ⟨ledger, .refl ledger, next, opened, phase, by simp⟩
  | case4 => trivial
  | case5 t kind current frames u closed =>
      rw [current] at phase
      obtain ⟨rest, resolved⟩ := opened.close (phase t rfl) closed
      refine ⟨ledger, .refl ledger, next, rest, ?_⟩
      intro v member
      cases member
      exact resolved
  | case6 t kind current _ =>
      rw [current] at phase
      exact soundMove_finish opened (phase t rfl)
  | case7 t current =>
      rw [current] at phase
      exact soundMove_finish opened (phase t rfl)
  | case8 head names kind current =>
      rw [current] at phase
      refine ⟨ledger, .refl ledger, next, opened, phase.1, ?_⟩
      intro name member
      rcases List.mem_cons.mp member with rfl | member
      · exact word kind
      · exact phase.2 name member
  | case9 => trivial
  | case10 head name names kind current =>
      -- the parameters are entered here; all that was read before keeps its entries
      rw [current] at phase
      have grown := ledger.extends_enter (name :: names).reverse
      refine ⟨ledger.enter (name :: names).reverse, grown, ?_, ?_, fun _ member => nomatch member⟩
      · simp [next, Ledger.enter]
      · rw [next]
        exact .lambda (fun t member => (phase.1 t member).extend grown)
          (fun b member => entered_number phase.2 member) (opened.extend grown)
  | case11 => trivial

/-- Reading goes from one ledger to another, also when it fails, and a term that is read is
resolved in the last one. -/
theorem Sound.run {ledger : Ledger} {r : Reading} {tokens : List Token} (sound : Sound ledger r)
    (words : ∀ token ∈ tokens, token.kind = .ident → IsWord token.lexeme) :
    ∃ ledger', ledger.Extends ledger' ∧ (r.run tokens).nextId = ledger'.next ∧
      ∀ t, (r.run tokens).result = .ok t → t.Resolved ledger' [] := by
  induction tokens generalizing ledger r with
  | nil =>
      have move : SoundMove ledger (r.step .missing) := sound.step fun kind => nomatch kind
      unfold Reading.run
      split <;> rename_i same <;> rw [same] at move
      · obtain ⟨ledger', grown, after⟩ := move
        exact ⟨ledger', grown, after.next, fun t success => nomatch success⟩
      · refine ⟨ledger, .refl ledger, sound.next, ?_⟩
        intro t success
        cases success
        exact move
      · exact ⟨ledger, .refl ledger, sound.next, fun t success => nomatch success⟩
  | cons token tokens ih =>
      have move := sound.step (words token List.mem_cons_self)
      unfold Reading.run
      split <;> rename_i same <;> rw [same] at move
      · obtain ⟨ledger', grown, after⟩ := move
        obtain ⟨ledger'', grown', next, resolved⟩ :=
          ih after fun token member => words token (List.mem_cons_of_mem _ member)
        exact ⟨ledger'', grown.trans grown', next, resolved⟩
      · refine ⟨ledger, .refl ledger, sound.next, ?_⟩
        intro t success
        cases success
        exact move
      · exact ⟨ledger, .refl ledger, sound.next, fun t success => nomatch success⟩

end Reading

/-! ## A whole text -/

namespace Parser

def Words (tokens : List Token) : Prop :=
  ∀ token ∈ tokens, token.kind = .ident → IsWord token.lexeme

theorem Words.suffix {tokens rest : List Token} (words : Words tokens) (part : rest <:+ tokens) :
    Words rest :=
  fun token member => words token (part.subset member)

theorem words_scan (source : String) : Words (Token.scan source).tokens :=
  fun _ member => Token.isWord_of_mem_scan member

theorem parseTerm_resolves {ledger : Ledger} {p : Parser} (next : p.nextId = ledger.next)
    (words : Words p.tokens) :
    ∃ ledger', ledger.Extends ledger' ∧ p.parseTerm.2.nextId = ledger'.next ∧
      ∀ t, p.parseTerm.1 = .ok t → t.Resolved ledger' [] := by
  have start := Reading.sound_start ledger
  rw [← next] at start
  obtain ⟨ledger', grown, last, resolved⟩ :=
    start.run (words.suffix (skipNewlines_suffix p.tokens))
  unfold parseTerm
  dsimp only
  split
  · exact ⟨ledger, .refl ledger, next, fun t success => nomatch success⟩
  · refine ⟨ledger', grown, ?_⟩
    split
    · exact ⟨last, fun t success => nomatch success⟩
    · rename_i t read
      split
      · exact ⟨last, fun t success => nomatch success⟩
      · split
        · exact ⟨last, fun t success => nomatch success⟩
        · split
          · exact ⟨last, fun t success => nomatch success⟩
          · refine ⟨last, ?_⟩
            intro u success
            cases success
            exact resolved t read

theorem nextId_endLine {α : Type} (form : Form) (value : α) (p : Parser) :
    (endLine form value p).2.nextId = p.nextId := by
  unfold endLine
  split <;> rfl

theorem eq_of_endLine {α : Type} {form : Form} {value v : α} {p : Parser}
    (success : (endLine form value p).1 = .ok v) : v = value := by
  unfold endLine at success
  split at success
  · cases success
    rfl
  · cases success

theorem termLine_resolves {ledger : Ledger} {form : Form} {p : Parser}
    (next : p.nextId = ledger.next) (words : Words p.tokens) :
    ∃ ledger', ledger.Extends ledger' ∧ (termLine form p).2.nextId = ledger'.next ∧
      ∀ t, (termLine form p).1 = .ok t → t.Resolved ledger' [] := by
  have start := Reading.sound_start ledger
  rw [← next] at start
  obtain ⟨ledger', grown, last, resolved⟩ := start.run words
  refine ⟨ledger', grown, ?_⟩
  unfold termLine
  dsimp only
  split
  · exact ⟨last, fun t success => nomatch success⟩
  · rename_i t read
    refine ⟨by rw [nextId_endLine, last], ?_⟩
    intro u success
    rw [eq_of_endLine success]
    exact resolved t read

end Parser

/-- The term of the statement, if it has one, is resolved. -/
def Statement.Resolved (ledger : Ledger) : Statement → Prop
  | .term t => t.Resolved ledger []
  | .binding _ t => t.Resolved ledger []
  | .command _ => True

namespace Parser

theorem termStatement_resolves {ledger : Ledger} {p : Parser} (next : p.nextId = ledger.next)
    (words : Words p.tokens) :
    ∃ ledger', ledger.Extends ledger' ∧ (termStatement p).2.nextId = ledger'.next ∧
      ∀ st, (termStatement p).1 = .ok st → st.Resolved ledger' := by
  obtain ⟨ledger', grown, last, resolved⟩ := @termLine_resolves ledger .term p next words
  refine ⟨ledger', grown, ?_⟩
  unfold termStatement
  split
  · rename_i e q read
    rw [read] at last
    exact ⟨last, fun st success => nomatch success⟩
  · rename_i t q read
    rw [read] at last resolved
    split
    · exact ⟨last, fun st success => nomatch success⟩
    · refine ⟨last, ?_⟩
      intro st success
      cases success
      exact resolved t rfl

theorem statement_resolves {ledger : Ledger} {p : Parser} (next : p.nextId = ledger.next)
    (words : Words p.tokens) :
    ∃ ledger', ledger.Extends ledger' ∧ (statement p).2.nextId = ledger'.next ∧
      ∀ st, (statement p).1 = .ok st → st.Resolved ledger' := by
  -- what a command leaves of the tokens is of no matter here, its term is none
  have command : ∀ (form : Form) (c : Command) (tokens : List Token),
      ∃ ledger', ledger.Extends ledger' ∧
        (endLine form (Statement.command c) { p with tokens := tokens }).2.nextId = ledger'.next ∧
        ∀ st, (endLine form (Statement.command c) { p with tokens := tokens }).1 = .ok st →
          st.Resolved ledger' := by
    intro form c tokens
    refine ⟨ledger, .refl ledger, by rw [nextId_endLine, next], ?_⟩
    intro st success
    rw [eq_of_endLine success]
    trivial
  unfold statement
  dsimp only
  split
  · have rest : Words p.tokens.tail.tail :=
      (words.suffix (List.tail_suffix _)).suffix (List.tail_suffix _)
    obtain ⟨ledger', grown, last, resolved⟩ :=
      @termLine_resolves ledger .binding { p with tokens := p.tokens.tail.tail } next rest
    refine ⟨ledger', grown, last, ?_⟩
    intro st success
    dsimp only at success
    cases read : (termLine .binding { p with tokens := p.tokens.tail.tail }).1 with
    | error e =>
        rw [read] at success
        cases success
    | ok t =>
        rw [read] at success
        cases success
        exact resolved t read
  · exact command _ _ _
  · exact command _ _ _
  · exact command _ _ _
  · exact ⟨ledger, .refl ledger, next, fun st success => nomatch success⟩
  · exact termStatement_resolves next words

theorem next_suffix (p : Parser) : p.next.2.tokens <:+ p.tokens := by
  have front := skipNewlines_suffix p.tokens
  have taken := statement_suffix { p with tokens := skipNewlines p.tokens }
  unfold next
  dsimp only
  split
  · exact front
  · split
    · rename_i e q read
      rw [read] at taken
      exact (synchronize_suffix q.tokens).trans (taken.trans front)
    · rename_i st q read
      rw [read] at taken
      exact taken.trans front

theorem next_resolves {ledger : Ledger} {p : Parser} (number : p.nextId = ledger.next)
    (words : Words p.tokens) :
    ∃ ledger', ledger.Extends ledger' ∧ p.next.2.nextId = ledger'.next ∧
      ∀ st, p.next.1 = .ok (some st) → st.Resolved ledger' := by
  obtain ⟨ledger', grown, last, resolved⟩ :=
    @statement_resolves ledger { p with tokens := skipNewlines p.tokens } number
      (words.suffix (skipNewlines_suffix p.tokens))
  unfold next
  dsimp only
  split
  · exact ⟨ledger, .refl ledger, number, fun st success => nomatch success⟩
  · refine ⟨ledger', grown, ?_⟩
    split
    · rename_i e q read
      rw [read] at last
      exact ⟨last, fun st success => nomatch success⟩
    · rename_i st q read
      rw [read] at last resolved
      refine ⟨last, ?_⟩
      intro st' success
      cases success
      exact resolved st rfl

end Parser

end UntypedLambda
