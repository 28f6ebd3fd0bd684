import Mathlib.Data.List.Forall2
import UntypedLambda.Proofs.Term.Named

/-! # The grammar of terms

    term ::= λ ident+ . term | atom+
    atom ::= ( term ) | ident | λ ident+ . term

`Derives` is this grammar with the tree of each derivation.  The grammar is ambiguous, because an
abstraction may be followed by another atom.  A derivation therefore also says how much each
abstraction leaves behind its body, and `Reads` picks the one in which every body reaches as far
to the right as it can.

Main statements: `Derives.reads`, every term has such a derivation, and `canonical_of_reads`, it
is the one of a grammar without that ambiguity, in which an abstraction ends the term. -/
set_option autoImplicit false

namespace UntypedLambda.Grammar

inductive Nonterminal where
  | term | application | atom | abstraction
deriving DecidableEq, Repr

/-- `λ ident+ .`, with the names of the parameters. -/
inductive Opening : List Token → List String → Prop where
  | mk {opening dot : Token} {params : List Token} (isLambda : opening.kind = .lambda)
      (nonempty : params ≠ []) (idents : ∀ p ∈ params, p.kind = .ident)
      (isDot : dot.kind = .dot) :
      Opening (opening :: (params ++ [dot])) (params.map Token.lexeme)

/-- The tokens are derived with that tree.  The numbers say, for every `λ` in the order in which
they stand, how many tokens are behind the body. -/
inductive Derives : Nonterminal → List Token → Named → List Nat → Prop where
  | lambda {front w : List Token} {names : List String} {e : Named} {behind : List Nat}
      (opening : Opening front names) (body : Derives .term w e behind) :
      Derives .abstraction (front ++ w) (.abstract names e) (0 :: behind)
  | ident {name : Token} (isIdent : name.kind = .ident) :
      Derives .atom [name] (.var name.lexeme) []
  | group {left right : Token} {w : List Token} {e : Named} {behind : List Nat}
      (isLeft : left.kind = .lparen) (isRight : right.kind = .rparen)
      (inside : Derives .term w e behind) :
      Derives .atom (left :: (w ++ [right])) e (behind.map (· + 1))
  | inner {w : List Token} {e : Named} {behind : List Nat}
      (abstraction : Derives .abstraction w e behind) : Derives .atom w e behind
  | single {w : List Token} {e : Named} {behind : List Nat} (atom : Derives .atom w e behind) :
      Derives .application w e behind
  | apply {v w : List Token} {fn arg : Named} {behind behind' : List Nat}
      (left : Derives .application v fn behind) (right : Derives .atom w arg behind') :
      Derives .application (v ++ w) (.app fn arg) (behind.map (· + w.length) ++ behind')
  | outer {w : List Token} {e : Named} {behind : List Nat}
      (abstraction : Derives .abstraction w e behind) : Derives .term w e behind
  | plain {w : List Token} {e : Named} {behind : List Nat}
      (application : Derives .application w e behind) : Derives .term w e behind

def IsTerm (w : List Token) : Prop := ∃ e behind, Derives .term w e behind

/-- The tree of the derivation that leaves as little as possible behind each body. -/
def Reads (w : List Token) (e : Named) : Prop :=
  ∃ behind, Derives .term w e behind ∧
    ∀ e' behind', Derives .term w e' behind' → List.Forall₂ (· ≤ ·) behind behind'

/-! ## A grammar without the ambiguity -/

inductive Part where
  | atom | spine | abstraction | term
deriving DecidableEq, Repr

/-- Only the last atom of an application may be an abstraction. -/
inductive Canonical : Part → List Token → Named → List Nat → Prop where
  | ident {name : Token} (isIdent : name.kind = .ident) :
      Canonical .atom [name] (.var name.lexeme) []
  | group {left right : Token} {w : List Token} {e : Named} {behind : List Nat}
      (isLeft : left.kind = .lparen) (isRight : right.kind = .rparen)
      (inside : Canonical .term w e behind) :
      Canonical .atom (left :: (w ++ [right])) e (behind.map (· + 1))
  | single {w : List Token} {e : Named} {behind : List Nat}
      (atom : Canonical .atom w e behind) : Canonical .spine w e behind
  | apply {v w : List Token} {fn arg : Named} {behind behind' : List Nat}
      (left : Canonical .spine v fn behind) (right : Canonical .atom w arg behind') :
      Canonical .spine (v ++ w) (.app fn arg) (behind.map (· + w.length) ++ behind')
  | lambda {front w : List Token} {names : List String} {e : Named} {behind : List Nat}
      (opening : Opening front names) (body : Canonical .term w e behind) :
      Canonical .abstraction (front ++ w) (.abstract names e) (0 :: behind)
  | plain {w : List Token} {e : Named} {behind : List Nat}
      (spine : Canonical .spine w e behind) : Canonical .term w e behind
  | outer {w : List Token} {e : Named} {behind : List Nat}
      (abstraction : Canonical .abstraction w e behind) : Canonical .term w e behind
  | last {v w : List Token} {fn arg : Named} {behind behind' : List Nat}
      (left : Canonical .spine v fn behind) (right : Canonical .abstraction w arg behind') :
      Canonical .term (v ++ w) (.app fn arg) (behind.map (· + w.length) ++ behind')

def Part.nonterminal : Part → Nonterminal
  | .atom => .atom
  | .spine => .application
  | .abstraction => .abstraction
  | .term => .term

theorem Canonical.derives {part : Part} {w : List Token} {e : Named} {behind : List Nat}
    (canonical : Canonical part w e behind) : Derives part.nonterminal w e behind := by
  induction canonical with
  | ident isIdent => exact .ident isIdent
  | group isLeft isRight _ ih => exact .group isLeft isRight ih
  | single _ ih => exact .single ih
  | apply _ _ ihf iha => exact .apply ihf iha
  | lambda opening _ ih => exact .lambda opening ih
  | plain _ ih => exact .plain ih
  | outer _ ih => exact .outer ih
  | last _ _ ihf iha => exact .plain (.apply ihf (.inner iha))

theorem Derives.ne_nil {a : Nonterminal} {w : List Token} {e : Named} {behind : List Nat}
    (derived : Derives a w e behind) : w ≠ [] := by
  induction derived with
  | lambda opening _ _ =>
      cases opening
      simp
  | ident _ => simp
  | group _ _ _ _ => simp
  | inner _ ih => exact ih
  | single _ ih => exact ih
  | apply _ _ ihf _ => simp [ihf]
  | outer _ ih => exact ih
  | plain _ ih => exact ih

/-! ## What is left behind -/

/-- One derivation leaves no more behind than another, and the same only if the trees agree. -/
def Tighter (e : Named) (behind : List Nat) (e' : Named) (behind' : List Nat) : Prop :=
  List.Forall₂ (· ≤ ·) behind behind' ∧ (behind = behind' → e = e')

theorem forall₂_le_trans {a b c : List Nat} (first : List.Forall₂ (· ≤ ·) a b)
    (second : List.Forall₂ (· ≤ ·) b c) : List.Forall₂ (· ≤ ·) a c := by
  induction first generalizing c with
  | nil => exact second
  | cons le _ ih =>
      cases second with
      | cons le' rest => exact .cons (Nat.le_trans le le') (ih rest)

theorem eq_of_forall₂_le {a b : List Nat} (first : List.Forall₂ (· ≤ ·) a b)
    (second : List.Forall₂ (· ≤ ·) b a) : a = b := by
  induction first with
  | nil => rfl
  | cons le _ ih =>
      cases second with
      | cons le' rest => rw [Nat.le_antisymm le le', ih rest]

theorem forall₂_le_map_add {a b : List Nat} (le : List.Forall₂ (· ≤ ·) a b) (n : Nat) :
    List.Forall₂ (· ≤ ·) (a.map (· + n)) (b.map (· + n)) :=
  List.forall₂_map_left_iff.mpr <| List.forall₂_map_right_iff.mpr <|
    le.imp fun _ _ le => Nat.add_le_add_right le n

theorem map_add_injective {a b : List Nat} {n : Nat} (same : a.map (· + n) = b.map (· + n)) :
    a = b :=
  List.map_injective_iff.mpr (fun _ _ => Nat.add_right_cancel) same

theorem Tighter.refl (e : Named) (behind : List Nat) : Tighter e behind e behind :=
  ⟨List.forall₂_refl behind, fun _ => rfl⟩

theorem Tighter.trans {e e' e'' : Named} {behind behind' behind'' : List Nat}
    (first : Tighter e behind e' behind') (second : Tighter e' behind' e'' behind'') :
    Tighter e behind e'' behind'' := by
  refine ⟨forall₂_le_trans first.1 second.1, ?_⟩
  intro same
  subst same
  have middle : behind = behind' := eq_of_forall₂_le first.1 second.1
  rw [first.2 middle, second.2 middle.symm]

theorem Tighter.lambda {names : List String} {e e' : Named} {behind behind' : List Nat}
    (tighter : Tighter e behind e' behind') :
    Tighter (.abstract names e) (0 :: behind) (.abstract names e') (0 :: behind') := by
  refine ⟨.cons (Nat.le_refl 0) tighter.1, ?_⟩
  intro same
  rw [tighter.2 (List.cons.inj same).2]

theorem Tighter.group {e e' : Named} {behind behind' : List Nat}
    (tighter : Tighter e behind e' behind') :
    Tighter e (behind.map (· + 1)) e' (behind'.map (· + 1)) :=
  ⟨forall₂_le_map_add tighter.1 1, fun same => tighter.2 (map_add_injective same)⟩

theorem Tighter.apply {fn fn' arg arg' : Named} {f f' a a' : List Nat} (n : Nat)
    (left : Tighter fn f fn' f') (right : Tighter arg a arg' a') :
    Tighter (.app fn arg) (f.map (· + n) ++ a) (.app fn' arg') (f'.map (· + n) ++ a') := by
  refine ⟨List.rel_append (forall₂_le_map_add left.1 n) right.1, ?_⟩
  intro same
  have parts := List.append_inj same (by simp [left.1.length_eq])
  rw [left.2 (map_add_injective parts.1), right.2 parts.2]

/-! ## Every derivation has a canonical one that leaves no more behind -/

/-- What may stand behind a function as its argument. -/
def Argument (w : List Token) (e : Named) (behind : List Nat) : Prop :=
  Canonical .atom w e behind ∨ Canonical .abstraction w e behind

theorem Argument.length_pos {w : List Token} {e : Named} {behind : List Nat}
    (argument : Argument w e behind) : 0 < w.length := by
  rcases argument with atom | abstraction
  · exact List.length_pos_iff.mpr atom.derives.ne_nil
  · exact List.length_pos_iff.mpr abstraction.derives.ne_nil

theorem Canonical.behind_eq_cons {w : List Token} {e : Named} {behind : List Nat}
    (canonical : Canonical .abstraction w e behind) : ∃ rest, behind = 0 :: rest := by
  cases canonical with
  | lambda opening body => exact ⟨_, rfl⟩

/-- One more argument behind a term goes into the body of the abstraction at its end, if there
is one. -/
theorem Canonical.extend {part : Part} {v w : List Token} {fn arg : Named}
    {behind behind' : List Nat} (function : Canonical part v fn behind)
    (argument : Argument w arg behind') :
    (part = .spine ∨ part = .term → ∃ e m, Canonical .term (v ++ w) e m ∧
      Tighter e m (.app fn arg) (behind.map (· + w.length) ++ behind')) ∧
    (part = .abstraction → ∃ e m, Canonical .abstraction (v ++ w) e m ∧
      Tighter e m (.app fn arg) (behind.map (· + w.length) ++ behind')) := by
  have positive := argument.length_pos
  induction function with
  | ident _ => simp
  | group _ _ _ _ => simp
  | single atom _ =>
      refine ⟨fun _ => ?_, by simp⟩
      rcases argument with closed | abstraction
      · exact ⟨_, _, .plain (.apply (.single atom) closed), .refl _ _⟩
      · exact ⟨_, _, .last (.single atom) abstraction, .refl _ _⟩
  | apply left right _ _ =>
      refine ⟨fun _ => ?_, by simp⟩
      rcases argument with closed | abstraction
      · exact ⟨_, _, .plain (.apply (.apply left right) closed), .refl _ _⟩
      · exact ⟨_, _, .last (.apply left right) abstraction, .refl _ _⟩
  | @lambda front u names body inner opening _ ih =>
      refine ⟨by simp, fun _ => ?_⟩
      obtain ⟨e, m, canonical, tighter⟩ := ih.1 (Or.inr rfl)
      refine ⟨.abstract names e, 0 :: m, ?_, ?_, ?_⟩
      · rw [List.append_assoc]
        exact .lambda opening canonical
      · exact .cons (Nat.zero_le _) tighter.1
      · -- the abstraction itself left the argument behind, and does so no longer
        intro same
        have first : 0 = 0 + w.length := (List.cons.inj same).1
        omega
  | plain _ ih => exact ⟨fun _ => ih.1 (Or.inl rfl), by simp⟩
  | outer _ ih =>
      refine ⟨fun _ => ?_, by simp⟩
      obtain ⟨e, m, canonical, tighter⟩ := ih.2 rfl
      exact ⟨e, m, .outer canonical, tighter⟩
  | @last u x f a before inner left right _ ih =>
      refine ⟨fun _ => ?_, by simp⟩
      obtain ⟨e, m, canonical, le, _⟩ := ih.2 rfl
      refine ⟨.app f e, before.map (· + (x ++ w).length) ++ m, ?_, ?_, ?_⟩
      · rw [List.append_assoc]
        exact .last left canonical
      · rw [List.map_append, List.map_map, List.append_assoc]
        apply List.rel_append _ le
        have shifted : ((· + w.length) ∘ (· + x.length)) = fun n => n + (x ++ w).length := by
          funext n
          simp only [Function.comp_apply, List.length_append]
          omega
        rw [shifted]
        exact List.forall₂_refl _
      · intro same
        rw [List.map_append, List.map_map, List.append_assoc] at same
        have inside := (List.append_inj same (by simp)).2
        obtain ⟨rest, rfl⟩ := right.behind_eq_cons
        obtain ⟨rest', rfl⟩ := canonical.behind_eq_cons
        have first : 0 = 0 + w.length := (List.cons.inj inside).1
        omega

def CanonicalFor : Nonterminal → List Token → Named → List Nat → Prop
  | .term => Canonical .term
  | .application => Canonical .term
  | .atom => Argument
  | .abstraction => Canonical .abstraction

theorem Derives.canonical {a : Nonterminal} {w : List Token} {e : Named} {behind : List Nat}
    (derived : Derives a w e behind) :
    ∃ e' m, CanonicalFor a w e' m ∧ Tighter e' m e behind := by
  induction derived with
  | lambda opening _ ih =>
      obtain ⟨e', m, canonical, tighter⟩ := ih
      exact ⟨_, _, .lambda opening canonical, tighter.lambda⟩
  | ident isIdent => exact ⟨_, _, Or.inl (.ident isIdent), .refl _ _⟩
  | group isLeft isRight _ ih =>
      obtain ⟨e', m, canonical, tighter⟩ := ih
      exact ⟨_, _, Or.inl (.group isLeft isRight canonical), tighter.group⟩
  | inner _ ih =>
      obtain ⟨e', m, canonical, tighter⟩ := ih
      exact ⟨e', m, Or.inr canonical, tighter⟩
  | single _ ih =>
      obtain ⟨e', m, canonical, tighter⟩ := ih
      rcases canonical with atom | abstraction
      · exact ⟨e', m, .plain (.single atom), tighter⟩
      · exact ⟨e', m, .outer abstraction, tighter⟩
  | apply _ _ ihf iha =>
      obtain ⟨fn', f, function, tighterFn⟩ := ihf
      obtain ⟨arg', a, argument, tighterArg⟩ := iha
      obtain ⟨e', m, canonical, tighter⟩ := (Canonical.extend function argument).1 (Or.inr rfl)
      exact ⟨e', m, canonical, tighter.trans (tighterFn.apply _ tighterArg)⟩
  | outer _ ih =>
      obtain ⟨e', m, canonical, tighter⟩ := ih
      exact ⟨e', m, .outer canonical, tighter⟩
  | plain _ ih => exact ih

/-! ## Where bodies end -/

/-- How many tokens there are from the first `)` on that closes nothing here, with `depth`
parentheses open already. -/
def unclosed : Nat → List Token → Nat
  | _, [] => 0
  | depth, token :: rest =>
    if token.kind = .lparen then unclosed (depth + 1) rest
    else if token.kind = .rparen then
      match depth with
      | 0 => rest.length + 1
      | depth + 1 => unclosed depth rest
    else unclosed depth rest

/-- What the abstractions leave behind if their bodies end at the parenthesis around them. -/
def extents : List Token → List Nat
  | [] => []
  | token :: rest => if token.kind = .lambda then unclosed 0 rest :: extents rest else extents rest

theorem unclosed_of_lparen {token : Token} (kind : token.kind = .lparen) (depth : Nat)
    (rest : List Token) : unclosed depth (token :: rest) = unclosed (depth + 1) rest := by
  cases depth <;> simp [unclosed, kind]

theorem unclosed_of_other {token : Token} (notLeft : token.kind ≠ .lparen)
    (notRight : token.kind ≠ .rparen) (depth : Nat) (rest : List Token) :
    unclosed depth (token :: rest) = unclosed depth rest := by
  cases depth <;> simp [unclosed, notLeft, notRight]

theorem unclosed_idents {params : List Token} (idents : ∀ p ∈ params, p.kind = .ident)
    (depth : Nat) (rest : List Token) : unclosed depth (params ++ rest) = unclosed depth rest := by
  induction params with
  | nil => rfl
  | cons param params ih =>
      have kind := idents param List.mem_cons_self
      have later := ih fun p member => idents p (List.mem_cons_of_mem _ member)
      rw [List.cons_append, unclosed_of_other (by simp [kind]) (by simp [kind]), later]

theorem extents_idents {params : List Token} (idents : ∀ p ∈ params, p.kind = .ident)
    (rest : List Token) : extents (params ++ rest) = extents rest := by
  induction params with
  | nil => rfl
  | cons param params ih =>
      have kind := idents param List.mem_cons_self
      have later := ih fun p member => idents p (List.mem_cons_of_mem _ member)
      simp [extents, kind, later]

theorem Opening.unclosed_append {front : List Token} {names : List String}
    (opening : Opening front names) (depth : Nat) (rest : List Token) :
    unclosed depth (front ++ rest) = unclosed depth rest := by
  obtain @⟨opening, dot, params, isLambda, _, idents, isDot⟩ := opening
  rw [List.cons_append, unclosed_of_other (by simp [isLambda]) (by simp [isLambda]),
    List.append_assoc, unclosed_idents idents, List.singleton_append,
    unclosed_of_other (by simp [isDot]) (by simp [isDot])]

theorem Opening.extents_append {front : List Token} {names : List String}
    (opening : Opening front names) (rest : List Token) :
    extents (front ++ rest) = unclosed 0 rest :: extents rest := by
  obtain @⟨opening, dot, params, isLambda, _, idents, isDot⟩ := opening
  rw [List.cons_append, extents, if_pos isLambda, List.append_assoc]
  rw [unclosed_idents idents, extents_idents idents, List.singleton_append,
    unclosed_of_other (by simp [isDot]) (by simp [isDot])]
  simp [extents, isDot]

/-- Parentheses are balanced. -/
theorem Canonical.unclosed_append {part : Part} {w : List Token} {e : Named} {behind : List Nat}
    (canonical : Canonical part w e behind) (depth : Nat) (rest : List Token) :
    unclosed depth (w ++ rest) = unclosed depth rest := by
  induction canonical generalizing depth rest with
  | ident isIdent =>
      rw [List.singleton_append, unclosed_of_other (by simp [isIdent]) (by simp [isIdent])]
  | group isLeft isRight _ ih =>
      rw [List.cons_append, unclosed_of_lparen isLeft, List.append_assoc, ih]
      simp [unclosed, isRight]
  | single _ ih => exact ih depth rest
  | apply _ _ ihf iha => rw [List.append_assoc, ihf, iha]
  | lambda opening _ ih => rw [List.append_assoc, opening.unclosed_append, ih]
  | plain _ ih => exact ih depth rest
  | outer _ ih => exact ih depth rest
  | last _ _ ihf iha => rw [List.append_assoc, ihf, iha]

/-- At the end, or before a `)`. -/
def Closed (rest : List Token) : Prop := ∀ token ∈ rest.head?, token.kind = .rparen

theorem Closed.unclosed_eq {rest : List Token} (closed : Closed rest) :
    unclosed 0 rest = rest.length := by
  cases rest with
  | nil => rfl
  | cons token rest =>
      have kind : token.kind = .rparen := closed token rfl
      simp [unclosed, kind]

theorem Canonical.extents_append {part : Part} {w : List Token} {e : Named} {behind : List Nat}
    (canonical : Canonical part w e behind) {rest : List Token}
    (closed : part = .abstraction ∨ part = .term → Closed rest) :
    extents (w ++ rest) = behind.map (· + rest.length) ++ extents rest := by
  induction canonical generalizing rest with
  | ident isIdent => simp [extents, isIdent]
  | @group left right w e behind isLeft isRight _ ih =>
      have inside : extents (w ++ right :: rest) =
          behind.map (· + (right :: rest).length) ++ extents (right :: rest) := by
        apply ih
        intro _ token member
        cases member
        exact isRight
      have skipLeft : extents (left :: (w ++ right :: rest)) = extents (w ++ right :: rest) := by
        simp [extents, isLeft]
      have skipRight : extents (right :: rest) = extents rest := by
        simp [extents, isRight]
      rw [List.cons_append, List.append_assoc, List.singleton_append, skipLeft, inside, skipRight,
        List.map_map]
      congr 2
      funext n
      simp only [Function.comp_apply, List.length_cons]
      omega
  | single _ ih => exact ih (by simp)
  | @apply v w fn arg behind behind' _ _ ihf iha =>
      rw [List.append_assoc, ihf (by simp), iha (by simp), List.map_append, List.map_map,
        List.append_assoc]
      congr 2
      funext n
      simp only [Function.comp_apply, List.length_append]
      omega
  | lambda opening body ih =>
      have stop := closed (Or.inl rfl)
      rw [List.append_assoc, opening.extents_append, body.unclosed_append, stop.unclosed_eq,
        ih fun _ => stop]
      simp
  | plain _ ih => exact ih (by simp)
  | outer _ ih => exact ih fun _ => closed (Or.inr rfl)
  | @last v w fn arg behind behind' _ _ ihf iha =>
      rw [List.append_assoc, ihf (by simp), iha fun _ => closed (Or.inr rfl), List.map_append,
        List.map_map, List.append_assoc]
      congr 2
      funext n
      simp only [Function.comp_apply, List.length_append]
      omega

theorem Canonical.behind_eq {w : List Token} {e : Named} {behind : List Nat}
    (canonical : Canonical .term w e behind) : behind = extents w := by
  have closed : Closed [] := fun token member => nomatch member
  have all := canonical.extents_append fun _ => closed
  simpa [extents] using all.symm

/-! ## The reading -/

theorem Canonical.reads {w : List Token} {e : Named} {behind : List Nat}
    (canonical : Canonical .term w e behind) : Reads w e := by
  refine ⟨behind, canonical.derives, ?_⟩
  intro e' behind' derived
  obtain ⟨e'', m, other, tighter⟩ := derived.canonical
  have same : behind = m := by rw [canonical.behind_eq, Canonical.behind_eq other]
  rw [same]
  exact tighter.1

theorem Derives.reads {w : List Token} {e : Named} {behind : List Nat}
    (derived : Derives .term w e behind) : ∃ e', Reads w e' := by
  obtain ⟨e', m, canonical, _⟩ := derived.canonical
  exact ⟨e', Canonical.reads canonical⟩

theorem canonical_of_reads {w : List Token} {e : Named} (reads : Reads w e) :
    ∃ behind, Canonical .term w e behind := by
  obtain ⟨behind, derived, least⟩ := reads
  obtain ⟨e', m, canonical, le, tree⟩ := derived.canonical
  have same : m = behind := eq_of_forall₂_le le (least e' m (Canonical.derives canonical))
  rw [← tree same]
  exact ⟨m, canonical⟩

end UntypedLambda.Grammar
