import UntypedLambda.Proofs.Reduction.Faithful

/-! # Names for free variables

A reduction that renames free variables gives each of them a name that no binder has, so no
free variable of its result stands below a binder of its name, whatever the term given was.

Main statements: `Derivation.allVars`, for what holds of every variable throughout, and
`uncaptured_of_visit`. -/
set_option autoImplicit false

namespace UntypedLambda.Reduction

/-! ## What a derivation keeps of every variable by itself -/

section Variables
variable {P : String → Int → Bool → Prop}
  (moved : ∀ n i name id renamed, i ≠ 0 → id ≠ 0 → P n i renamed → P name id renamed)
include moved

theorem Renames.allVars {wrap : Term → Term} {t u : Term} {c c' : Counters}
    {events : List Event} (steps : Renames wrap t c events u c') (numbers : c.lastId ≤ 0)
    (numbered : t.Numbered c.lastId) (all : t.AllVars P) : u.AllVars P := by
  induction steps with
  | nil t c => exact all
  | @cons t u v c c' events binder old step rest ih =>
      have lower : c.afterAlpha.lastId ≤ 0 :=
        Int.le_trans (Counters.Before.afterAlpha c).lastId numbers
      have fresh : c.lastId - 1 ≠ 0 := by omega
      apply ih lower (numbered.renamed numbers step)
      exact step.allVars numbered.binder_ne_zero
        (fun n i renamed bound => moved n i _ _ renamed bound fresh) all

theorem Derivation.allVars {o : Options} {t u : Term} {c c' : Counters} {events : List Event}
    (derivation : Derivation o t c events u c') (numbers : c.lastId ≤ 0)
    (numbered : t.Numbered c.lastId)
    (named : o.renameFree = true → ∀ k < c'.freeNames, P (freeName k) 0 true)
    (all : t.AllVars P) : u.AllVars P := by
  induction derivation with
  | refl t c => exact all
  | trans first second ihf ihs =>
      have later := second.before.freeNames
      apply ihs (Int.le_trans first.before.lastId numbers) (first.numbered numbers numbered) named
      exact ihf numbers numbered (fun on k less => named on k (Nat.lt_of_lt_of_le less later)) all
  | body name id _ ih => exact ih numbers numbered.body named all
  | fn arg _ ih => exact ⟨ih numbers numbered.fn named all.1, all.2⟩
  | arg fn _ ih => exact ⟨all.1, ih numbers numbered.arg named all.2⟩
  | free on name c => exact named on c.freeNames (Nat.lt_succ_self _)
  | rename steps => exact ⟨steps.allVars moved numbers numbered.fn.body all.1, all.2⟩
  | contract steps _ =>
      exact Term.AllVars.substitute all.2 (steps.allVars moved numbers numbered.fn.body all.1)

end Variables

/-! ## Marks -/

/-- A variable that was renamed is free and has one of the names handed out so far. -/
def Marked (handedOut : Nat) (name : String) (id : Int) (renamed : Bool) : Prop :=
  renamed = true → id = 0 ∧ ∃ k < handedOut, name = freeName k

/-- A variable that is free has been renamed. -/
def Settled (_ : String) (id : Int) (renamed : Bool) : Prop := id = 0 → renamed = true

/-- A variable that is free has a name from the reducer. -/
def FreeNamed (name : String) (id : Int) (_ : Bool) : Prop :=
  id = 0 → ∃ k, name = freeName k

section Marks
variable {o : Options} {t u : Term} {c c' : Counters} {events : List Event}

theorem Derivation.marked (derivation : Derivation o t c events u c') (numbers : c.lastId ≤ 0)
    (numbered : t.Numbered c.lastId) (marked : t.AllVars (Marked c.freeNames)) :
    u.AllVars (Marked c'.freeNames) := by
  have earlier := derivation.before.freeNames
  refine @Derivation.allVars (Marked c'.freeNames) ?_ o t u c c' events derivation numbers
    numbered ?_ (marked.mono ?_)
  · exact fun n i name id renamed bound _ marked mark => absurd (marked mark).1 bound
  · exact fun _ k less _ => ⟨rfl, k, less, rfl⟩
  · intro name id renamed marked mark
    obtain ⟨free, k, less, same⟩ := marked mark
    exact ⟨free, k, Nat.lt_of_lt_of_le less earlier, same⟩

theorem Derivation.settled (derivation : Derivation o t c events u c') (numbers : c.lastId ≤ 0)
    (numbered : t.Numbered c.lastId) (settled : t.AllVars Settled) : u.AllVars Settled :=
  @Derivation.allVars Settled (fun _ _ _ _ _ _ bound _ free => absurd free bound) o t u c c' events
    derivation numbers numbered (fun _ _ _ _ => rfl) settled

theorem Finished.settled {room : Nat} (finished : Finished true room t) : t.AllVars Settled := by
  induction finished with
  | var settled => exact settled rfl
  | abs inside ih => exact ih
  | app stuck left right ihf iha => exact ⟨ihf, iha⟩

/-- With renaming on, a reduction to the end leaves no free variable without its mark. -/
theorem settled_of_visit (on : o.renameFree = true) {room depth : Nat}
    (success : (visit o room depth t c).result = .ok u) : u.AllVars Settled :=
  (on ▸ finished_of_visit success).settled

theorem freeNamed_of_visit (on : o.renameFree = true) {room depth : Nat} (numbers : c.lastId ≤ 0)
    (numbered : t.Numbered c.lastId) (marked : t.AllVars (Marked c.freeNames))
    (success : (visit o room depth t c).result = .ok u) : u.AllVars FreeNamed := by
  have settled := settled_of_visit on success
  have drawn := (derivation_of_visit success).marked numbers numbered marked
  apply (settled.and drawn).mono
  intro name id renamed both free
  obtain ⟨_, k, _, same⟩ := both.2 (both.1 free)
  exact ⟨k, same⟩

end Marks

/-! ## No capture -/

theorem uncaptured_of_freeNamed {scope : List Label} {t : Term}
    (around : ∀ l ∈ scope, ∀ k, l.1 ≠ freeName k)
    (binders : ∀ l ∈ t.binderLabels, ∀ k, l.1 ≠ freeName k) (named : t.AllVars FreeNamed) :
    t.EveryVar Term.Uncaptured scope := by
  induction t generalizing scope with
  | hole => trivial
  | var name id renamed =>
      intro free l member
      obtain ⟨k, rfl⟩ := named free
      exact around l member k
  | abs name id body ih =>
      refine ih ?_ (fun l member => binders l (by simp [Term.labelsOf, member])) named
      intro l member
      rcases List.mem_cons.mp member with rfl | member
      · exact binders (name, id) (by simp [Term.labelsOf])
      · exact around l member
  | app fn arg ihf iha =>
      exact ⟨ihf around (fun l member => binders l (by simp [Term.labelsOf, member])) named.1,
        iha around (fun l member => binders l (by simp [Term.labelsOf, member])) named.2⟩

/-- No binder gets a name that is meant for free variables. -/
theorem Derivation.binder_ne_freeName {o : Options} {t u : Term} {c c' : Counters}
    {events : List Event} (derivation : Derivation o t c events u c') (numbers : c.lastId ≤ 0)
    (numbered : t.Numbered c.lastId) (words : ∀ l ∈ t.binderLabels, IsWord l.1) :
    ∀ l ∈ u.binderLabels, ∀ k, l.1 ≠ freeName k := by
  intro l member k
  have bound : l.2 ≠ 0 := (derivation.numbered numbers numbered).binder_ne_zero l member
  rcases derivation.labelsOf member with before | issued
  · intro same
    have word := words l before
    rw [same, freeName_eq] at word
    exact not_isWord_capital _ word
  · cases issued with
    | binder => exact binderName_ne_freeName _ k
    | free => exact absurd rfl bound

theorem uncaptured_of_visit {o : Options} (on : o.renameFree = true) {room depth : Nat}
    {t u : Term} {c : Counters} (numbers : c.lastId ≤ 0) (numbered : t.Numbered c.lastId)
    (words : ∀ l ∈ t.binderLabels, IsWord l.1) (marked : t.AllVars (Marked c.freeNames))
    (success : (visit o room depth t c).result = .ok u) : u.EveryVar Term.Uncaptured [] :=
  uncaptured_of_freeNamed (by simp)
    ((derivation_of_visit success).binder_ne_freeName numbers numbered words)
    (freeNamed_of_visit on numbers numbered marked success)

end UntypedLambda.Reduction
