import UntypedLambda.Proofs.Session.Transcript
import UntypedLambda.Proofs.Term.PostOrder

/-! # Where an expansion stops

An expansion goes from left to right.  When it stops at a place, every name further to the left
has been replaced by its whole expansion, and nothing else has been changed.  The place is that of
a node that stands too deep, or of a name whose definition comes to stand too deep when it is
expanded in turn; a definition that is left half-way is thrown away.

Main statements: `stopped_of_visit`, and `failed_expansion_left`, which says what is left of the
term, of the definitions and in the log. -/
set_option autoImplicit false

namespace UntypedLambda

open UntypedLambda.Path (LeftOf)

/-! ## Names at some places -/

namespace Term

variable {value : String → Option Term}

/-- Puts their values in place of the free variables at the chosen paths.  A name without a value
stays. -/
def replaceNames (value : String → Option Term) (chosen : Path → Bool) : Term → Term
  | hole => hole
  | var name id renamed =>
    if id = 0 ∧ chosen [] then (value name).getD (var name id renamed) else var name id renamed
  | abs name id body => abs name id (body.replaceNames value fun p => chosen (.body :: p))
  | app fn arg =>
    app (fn.replaceNames value fun p => chosen (.fn :: p))
      (arg.replaceNames value fun p => chosen (.arg :: p))

@[simp] theorem replaceNames_nowhere (t : Term) : t.replaceNames value (fun _ => false) = t := by
  induction t with
  | hole => rfl
  | var name id renamed => simp [replaceNames]
  | abs name id body ih => rw [replaceNames, ih]
  | app fn arg ihf iha => rw [replaceNames, ihf, iha]

/-- At a path and to the right of it nothing is changed when names to the left of it are. -/
theorem at?_replaceNames_leftOf {p q : Path} (right : p = q ∨ LeftOf q p) (t : Term) :
    (t.replaceNames value fun p => LeftOf p q).at? p = t.at? p := by
  induction q generalizing p t with
  | nil =>
      simp only [Path.not_leftOf_nil, decide_false, replaceNames_nowhere]
  | cons step q ih =>
      have turns : (∃ p', p = step :: p' ∧ (p' = q ∨ LeftOf q p')) ∨
          step = .fn ∧ ∃ p', p = .arg :: p' := by
        rcases right with rfl | right
        · exact Or.inl ⟨q, rfl, Or.inl rfl⟩
        · rcases Path.cons_leftOf_iff.mp right with ⟨p', rfl, inside⟩ | apart
          · exact Or.inl ⟨p', rfl, Or.inr inside⟩
          · exact Or.inr apart
      cases t with
      | hole => rfl
      | var name id renamed => simp [replaceNames]
      | abs name id body =>
          rcases turns with ⟨p', rfl, inside⟩ | ⟨rfl, p', rfl⟩
          · cases step with
            | body => simpa only [replaceNames, at?, Path.cons_leftOf_cons] using ih inside body
            | _ => rfl
          · rfl
      | app fn arg =>
          rcases turns with ⟨p', rfl, inside⟩ | ⟨rfl, p', rfl⟩
          · cases step with
            | body => rfl
            | fn => simpa only [replaceNames, at?, Path.cons_leftOf_cons] using ih inside fn
            | arg => simpa only [replaceNames, at?, Path.cons_leftOf_cons] using ih inside arg
          · simp [replaceNames, at?]

end Term

/-! ## Whole expansions -/

namespace Expansion

open Term

variable {definitions value : String → Option Term}

theorem Expands.unique {t u v : Term} (first : Expands definitions t u)
    (second : Expands definitions t v) : u = v := by
  induction first generalizing v with
  | keep undefined =>
      cases second with
      | keep => rfl
      | unfold found => rw [undefined rfl] at found; cases found
  | unfold found _ ih =>
      cases second with
      | keep undefined => rw [undefined rfl] at found; cases found
      | unfold found' below =>
          cases found.symm.trans found'
          exact ih below
  | abs _ ih =>
      cases second with
      | abs inside => rw [ih inside]
  | app _ _ ihf iha =>
      cases second with
      | app left right => rw [ihf left, iha right]

/-- The value of a name is the whole expansion of its definition, if it has one. -/
def Complete (definitions value : String → Option Term) : Prop :=
  ∀ name u, value name = some u ↔ ∃ d, definitions name = some d ∧ Expands definitions d u

theorem exists_complete (definitions : String → Option Term) :
    ∃ value, Complete definitions value := by
  have each : ∀ name, ∃ v : Option Term, ∀ u,
      v = some u ↔ ∃ d, definitions name = some d ∧ Expands definitions d u := by
    intro name
    by_cases expanded : ∃ u d, definitions name = some d ∧ Expands definitions d u
    · obtain ⟨u, d, found, expands⟩ := expanded
      refine ⟨some u, fun v => ⟨?_, ?_⟩⟩
      · rintro same
        cases same
        exact ⟨d, found, expands⟩
      · rintro ⟨d', found', expands'⟩
        cases found.symm.trans found'
        rw [expands.unique expands']
    · refine ⟨none, fun v => ⟨nofun, ?_⟩⟩
      rintro ⟨d, found, expands⟩
      exact absurd ⟨v, d, found, expands⟩ expanded
  exact ⟨fun name => (each name).choose, fun name => (each name).choose_spec⟩

/-- A whole expansion puts the values in place of all names. -/
theorem Expands.replaceNames (complete : Complete definitions value) {t u : Term}
    (expands : Expands definitions t u) : t.replaceNames value (fun _ => true) = u := by
  induction expands with
  | @keep name id renamed undefined =>
      by_cases free : id = 0
      · have missing : value name = none := by
          cases known : value name with
          | none => rfl
          | some u =>
              obtain ⟨d, found, _⟩ := (complete name u).mp known
              rw [undefined free] at found
              cases found
        simp [Term.replaceNames, missing]
      · simp [Term.replaceNames, free]
  | @unfold name renamed d u found below _ =>
      have known := (complete name u).mpr ⟨d, found, below⟩
      simp [Term.replaceNames, known]
  | abs _ ih => rw [Term.replaceNames, ih]
  | app _ _ ihf iha => rw [Term.replaceNames, ihf, iha]

/-- In a term that can be expanded as a whole, each name can. -/
theorem Expands.exists_of_at? {t u : Term} (expands : Expands definitions t u) {p : Path}
    {name : String} {renamed : Bool} {d : Term} (place : t.at? p = some (.var name 0 renamed))
    (found : definitions name = some d) : ∃ v, Expands definitions d v := by
  induction expands generalizing p with
  | keep undefined =>
      cases p with
      | nil =>
          cases place
          rw [undefined rfl] at found
          cases found
      | cons step p => cases step <;> cases place
  | unfold found' below _ =>
      cases p with
      | nil =>
          cases place
          cases found.symm.trans found'
          exact ⟨_, below⟩
      | cons step p => cases step <;> cases place
  | abs _ ih =>
      rcases p with _ | ⟨_ | _ | _, p⟩
      · cases place
      · exact ih place
      · cases place
      · cases place
  | app _ _ ihf iha =>
      rcases p with _ | ⟨_ | _ | _, p⟩
      · cases place
      · cases place
      · exact ihf place
      · exact iha place

/-! ## The place -/

/-- With so much room, what is at the path stops the work: it stands too deep, or it is a name and
its definition cannot be expanded in the room that is left there. -/
inductive StopsAt (definitions : String → Option Term) :
    (room depth : Nat) → Term → Path → Stop.Cause → Prop where
  | tooDeep {depth : Nat} {t : Term} : StopsAt definitions 0 depth t [] (.tooDeep t depth)
  | definition {room depth : Nat} {name : String} {renamed : Bool} {d : Term} {stop : Stop}
      (found : definitions name = some d)
      (failed : (visit definitions room (depth + 1) d).result = .error stop) :
      StopsAt definitions (room + 1) depth (.var name 0 renamed) [] stop.cause
  | body {room depth : Nat} {name : String} {id : Int} {body : Term} {p : Path}
      {cause : Stop.Cause} (inside : StopsAt definitions room (depth + 1) body p cause) :
      StopsAt definitions (room + 1) depth (.abs name id body) (.body :: p) cause
  | fn {room depth : Nat} {fn arg : Term} {p : Path} {cause : Stop.Cause}
      (inside : StopsAt definitions room (depth + 1) fn p cause) :
      StopsAt definitions (room + 1) depth (.app fn arg) (.fn :: p) cause
  | arg {room depth : Nat} {fn arg : Term} {p : Path} {cause : Stop.Cause}
      (inside : StopsAt definitions room (depth + 1) arg p cause) :
      StopsAt definitions (room + 1) depth (.app fn arg) (.arg :: p) cause

theorem StopsAt.visit_ne_ok {room depth : Nat} {t : Term} {p : Path} {cause : Stop.Cause}
    (stops : StopsAt definitions room depth t p cause) (u : Term) :
    (visit definitions room depth t).result ≠ .ok u := by
  intro success
  induction stops generalizing u with
  | tooDeep => cases success
  | definition found failed =>
      simp only [visit, if_true, found, Run.inside_eq_ok] at success
      rw [failed] at success
      cases success
  | body _ ih =>
      simp only [visit, Run.map_eq_ok, Run.inside_eq_ok] at success
      obtain ⟨v, success, _⟩ := success
      exact ih v success
  | fn _ ih =>
      simp only [visit, Run.andThen_eq_ok, Run.inside_eq_ok] at success
      obtain ⟨v, success, _⟩ := success
      exact ih v success
  | arg _ ih =>
      simp only [visit, Run.andThen_eq_ok, Run.map_eq_ok, Run.inside_eq_ok] at success
      obtain ⟨_, _, v, success, _⟩ := success
      exact ih v success

theorem StopsAt.exists_at? {room depth : Nat} {t : Term} {p : Path} {cause : Stop.Cause}
    (stops : StopsAt definitions room depth t p cause) : ∃ node, t.at? p = some node := by
  induction stops with
  | tooDeep => exact ⟨_, rfl⟩
  | definition => exact ⟨_, rfl⟩
  | body _ ih => exact ih
  | fn _ ih => exact ih
  | arg _ ih => exact ih

/-- Of all places that stop the work the path leads to the leftmost. -/
structure FirstStop (definitions : String → Option Term) (room depth : Nat) (t : Term) (q : Path)
    (cause : Stop.Cause) : Prop where
  stops : StopsAt definitions room depth t q cause
  first : ∀ p other, StopsAt definitions room depth t p other → p = q ∨ LeftOf q p

/-- What a term becomes that is expanded up to a path: names to the left give way to their values,
and all of these that are defined have a value. -/
structure ExpandedUpTo (definitions value : String → Option Term) (q : Path) (t left : Term) :
    Prop where
  left_eq : left = t.replaceNames value fun p => LeftOf p q
  known : ∀ p name renamed d, LeftOf p q → t.at? p = some (.var name 0 renamed) →
    definitions name = some d → ∃ u, value name = some u

namespace FirstStop

variable {room depth : Nat} {name : String} {id : Int} {t u v : Term} {q : Path}
  {cause : Stop.Cause}

theorem tooDeep (t : Term) : FirstStop definitions 0 depth t [] (.tooDeep t depth) where
  stops := .tooDeep
  first := by
    intro p other stops
    cases stops
    exact Or.inl rfl

theorem definition {renamed : Bool} {d : Term} {stop : Stop} (found : definitions name = some d)
    (failed : (visit definitions room (depth + 1) d).result = .error stop) :
    FirstStop definitions (room + 1) depth (.var name 0 renamed) [] stop.cause where
  stops := .definition found failed
  first := by
    intro p other stops
    cases stops
    exact Or.inl rfl

theorem body (firstStop : FirstStop definitions room (depth + 1) t q cause) :
    FirstStop definitions (room + 1) depth (.abs name id t) (.body :: q) cause where
  stops := .body firstStop.stops
  first := by
    intro p other stops
    cases stops with
    | body inside => simpa using firstStop.first _ _ inside

theorem fn (firstStop : FirstStop definitions room (depth + 1) t q cause) :
    FirstStop definitions (room + 1) depth (.app t u) (.fn :: q) cause where
  stops := .fn firstStop.stops
  first := by
    intro p other stops
    cases stops with
    | fn inside => simpa using firstStop.first _ _ inside
    | arg inside => exact Or.inr Path.fn_leftOf_arg

/-- A function that has been expanded has no place that stops the work. -/
theorem arg (done : (visit definitions room (depth + 1) t).result = .ok v)
    (firstStop : FirstStop definitions room (depth + 1) u q cause) :
    FirstStop definitions (room + 1) depth (.app t u) (.arg :: q) cause where
  stops := .arg firstStop.stops
  first := by
    intro p other stops
    cases stops with
    | fn inside => exact absurd done (inside.visit_ne_ok v)
    | arg inside => simpa using firstStop.first _ _ inside

end FirstStop

namespace ExpandedUpTo

variable {name : String} {id : Int} {t u v left : Term} {q : Path}

theorem nil (t : Term) : ExpandedUpTo definitions value [] t t where
  left_eq := by simp
  known := fun _ _ _ _ isLeft => absurd isLeft Path.not_leftOf_nil

theorem body (expanded : ExpandedUpTo definitions value q t left) :
    ExpandedUpTo definitions value (.body :: q) (.abs name id t) (.abs name id left) where
  left_eq := by simp [replaceNames, ← expanded.left_eq]
  known := by
    intro p x renamed d isLeft place found
    rcases Path.leftOf_cons_iff.mp isLeft with ⟨p, rfl, inside⟩ | ⟨other, _⟩
    · exact expanded.known p x renamed d inside place found
    · cases other

theorem fn (expanded : ExpandedUpTo definitions value q t left) :
    ExpandedUpTo definitions value (.fn :: q) (.app t u) (.app left u) where
  left_eq := by simp [replaceNames, ← expanded.left_eq]
  known := by
    intro p x renamed d isLeft place found
    rcases Path.leftOf_cons_iff.mp isLeft with ⟨p, rfl, inside⟩ | ⟨other, _⟩
    · exact expanded.known p x renamed d inside place found
    · cases other

theorem arg (complete : Complete definitions value) (expands : Expands definitions t v)
    (expanded : ExpandedUpTo definitions value q u left) :
    ExpandedUpTo definitions value (.arg :: q) (.app t u) (.app v left) where
  left_eq := by simp [replaceNames, ← expanded.left_eq, expands.replaceNames complete]
  known := by
    intro p x renamed d isLeft place found
    rcases Path.leftOf_cons_iff.mp isLeft with ⟨p, rfl, inside⟩ | ⟨_, p, rfl⟩
    · exact expanded.known p x renamed d inside place found
    · obtain ⟨w, below⟩ := expands.exists_of_at? place found
      exact ⟨w, (complete x w).mpr ⟨d, found, below⟩⟩

end ExpandedUpTo

/-- Work that stops has been done up to the first place that stops it. -/
theorem stopped_of_visit (complete : Complete definitions value) {room depth : Nat} {t : Term}
    {stop : Stop} (whole : t.HoleFree)
    (failed : (visit definitions room depth t).result = .error stop) :
    ∃ q, FirstStop definitions room depth t q stop.cause ∧
      ExpandedUpTo definitions value q t stop.reached := by
  induction room generalizing depth t stop with
  | zero =>
      cases failed
      exact ⟨[], .tooDeep t, .nil t⟩
  | succ room ih =>
      cases t with
      | hole => exact whole.elim
      | var name id renamed =>
          simp only [visit] at failed
          split at failed
          · cases failed
          · rename_i d found
            split at found
            · rename_i free
              subst free
              obtain ⟨below, stopped, rfl⟩ := Run.inside_eq_error.mp failed
              have here : FirstStop definitions (room + 1) depth (.var name 0 renamed) []
                  below.cause :=
                .definition found stopped
              exact ⟨[], here, .nil _⟩
            · cases found
      | abs name id body =>
          simp only [visit, Run.map_eq_error, Run.inside_eq_error] at failed
          obtain ⟨below, failed, rfl⟩ := failed
          have bodyWhole : body.HoleFree := whole
          obtain ⟨q, firstStop, expanded⟩ := ih bodyWhole failed
          exact ⟨.body :: q, firstStop.body, expanded.body⟩
      | app fn arg =>
          simp only [visit, Run.andThen_eq_error, Run.map_eq_error, Run.inside_eq_error,
            Run.inside_eq_ok] at failed
          rcases failed with ⟨below, failed, rfl⟩ | ⟨fn', done, below, failed, rfl⟩
          · obtain ⟨q, firstStop, expanded⟩ := ih whole.1 failed
            exact ⟨.fn :: q, firstStop.fn, expanded.fn⟩
          · obtain ⟨q, firstStop, expanded⟩ := ih whole.2 failed
            exact ⟨.arg :: q, firstStop.arg done, expanded.arg complete (expands_of_visit done)⟩

end Expansion

/-- An evaluation that cannot expand its term notes the names that it looked up and the error. -/
theorem Session.evaluateTerm_of_depth {s : Session} {t : Term} {error : DepthError}
    (failed : (Expansion.run s.lookup s.options.bound t).toExcept = .error (.depth error))
    (silent : (Expansion.run s.lookup s.options.bound t).summary? = none) :
    (s.evaluateTerm t).result = .error (.depth error) ∧
    (s.evaluateTerm t).session.log = s.log.writeAll (.parsed t ::
      ((Expansion.run s.lookup s.options.bound t).unfoldings.map .unfolding ++
        [.error (.depth error)])) := by
  have noted : Log.Note.ofExpansion (Expansion.run s.lookup s.options.bound t) =
      (Expansion.run s.lookup s.options.bound t).unfoldings.map .unfolding := by
    rw [Log.Note.ofExpansion, silent]
    exact List.append_nil _
  unfold evaluateTerm
  dsimp only
  rw [failed, Log.addExpansion_eq, noted]
  refine ⟨rfl, ?_⟩
  rw [← List.cons_append, Log.writeAll_append]
  rfl

namespace Expansion

variable {definitions : String → Option Term}

/-! ## What is left -/

/-- When an expansion fails, the term is left with the names to the left of one place replaced by
their whole expansions, and as it was otherwise: at that place, which is the first from the left
that stops the work, and further to the right.  The error shows the same term.  Nothing is
noted but the names that were looked up and the error, and the definitions are as before. -/
theorem failed_expansion_left
    (definitionsWhole : ∀ name d, definitions name = some d → d.HoleFree) {bound : Nat} {t : Term}
    (whole : t.HoleFree) {e : Error} (failed : (run definitions bound t).toExcept = .error e) :
    let r := run definitions bound t
    (∃ q visited value, e = .depth ⟨visited, bound + 1, r.inPlace t⟩ ∧
      FirstStop definitions (bound + 1) 0 t q (.tooDeep visited (bound + 1)) ∧
      Complete definitions value ∧ ExpandedUpTo definitions value q t (r.inPlace t) ∧
      (∃ node, t.at? q = some node ∧ (r.inPlace t).at? q = some node) ∧
      ∀ p, LeftOf q p → (r.inPlace t).at? p = t.at? p) ∧
    r.summary? = none ∧
    ∀ s : Session, s.lookup = definitions → s.options.bound = bound →
      (s.evaluateTerm t).result = .error e ∧
      (s.evaluateTerm t).expanded = r.inPlace t ∧
      (s.evaluateTerm t).session.bindings = s.bindings ∧
      (s.evaluateTerm t).session.log =
        s.log.writeAll (.parsed t :: (r.unfoldings.map .unfolding ++ [.error e])) := by
  intro r
  cases result : r.result with
  | ok u =>
      rw [Run.toExcept, result] at failed
      cases failed
  | error stop =>
      obtain ⟨visited, cause⟩ := cause_of_visit definitionsWhole whole result
      rw [Nat.zero_add] at cause
      have error : e = .depth ⟨visited, bound + 1, stop.reached⟩ := by
        rw [Run.toExcept, result, Except.mapError_error, Stop.toError, cause] at failed
        exact (Except.error.inj failed).symm
      have left : r.inPlace t = stop.reached := by rw [Run.inPlace, result]
      have silent : r.summary? = none := by rw [Run.summary?, result]
      obtain ⟨value, complete⟩ := exists_complete definitions
      obtain ⟨q, firstStop, expanded⟩ := stopped_of_visit complete whole result
      have kept : ∀ p, p = q ∨ LeftOf q p → stop.reached.at? p = t.at? p := fun p right => by
        rw [expanded.left_eq, Term.at?_replaceNames_leftOf right]
      obtain ⟨node, place⟩ := firstStop.stops.exists_at?
      rw [left]
      refine ⟨⟨q, visited, value, error, cause ▸ firstStop, complete, expanded,
        ⟨node, place, (kept q (Or.inl rfl)).trans place⟩, fun p right => kept p (Or.inr right)⟩,
        silent, ?_⟩
      rintro s rfl rfl
      have unchanged := (Session.Untouched.evaluateTerm (a := s) ⟨rfl, rfl, rfl⟩ t).bindings
      rw [error] at failed ⊢
      obtain ⟨answer, logged⟩ := Session.evaluateTerm_of_depth failed silent
      exact ⟨answer, left, unchanged, logged⟩

/-- The identity as `k`, and `loop` as `f loop`. -/
def looping : Std.TreeMap String Term :=
  (Std.TreeMap.empty.insert "k" (.abs "x" 1 (.var "x" 1 false))).insert "loop"
    (.app (.var "f" 0 false) (.var "loop" 0 false))

theorem holeFree_looping (name : String) (d : Term) (found : looping[name]? = some d) :
    d.HoleFree := by
  rw [looping, Std.TreeMap.getElem?_insert, Std.TreeMap.getElem?_insert] at found
  split at found
  · cases found
    decide
  · split at found
    · cases found
      decide
    · cases found

/-- `λy. k (loop y) k`, where `first` and `last` stand for the two `k`. -/
def aroundLoop (first last : Term) : Term :=
  .abs "y" 2 (.app (.app first (.app (.var "loop" 0 false) (.var "y" 2 false))) last)

/-- Neither `k` stops the work, so nothing but `loop` does. -/
theorem path_of_stopsAt_aroundLoop {q : Path} {cause : Stop.Cause}
    (stops : StopsAt (looping[·]?) 6 0 (aroundLoop (.var "k" 0 false) (.var "k" 0 false)) q
      cause) : q = [.body, .fn, .arg, .fn] := by
  have identity : ∀ room depth, (visit (looping[·]?) (room + 3) depth (.var "k" 0 false)).result =
      .ok (.abs "x" 1 (.var "x" 1 false)) := by
    intro room depth
    have found : looping["k"]? = some (.abs "x" 1 (.var "x" 1 false)) := by decide +kernel
    simp [visit, found, Run.done, Run.inside, Run.map, Except.map]
  unfold aroundLoop at stops
  cases stops with
  | body inside =>
      cases inside with
      | arg inside => exact absurd (identity 1 2) (inside.visit_ne_ok _)
      | fn inside =>
          cases inside with
          | fn inside => exact absurd (identity 0 3) (inside.visit_ne_ok _)
          | arg inside =>
              cases inside with
              | fn inside =>
                  cases inside
                  rfl
              | arg inside => cases inside

/-- The first `k` is replaced, and the second stays. -/
theorem failed_expansion_left_loop :
    let t := aroundLoop (.var "k" 0 false) (.var "k" 0 false)
    let left := aroundLoop (.abs "x" 1 (.var "x" 1 false)) (.var "k" 0 false)
    (run (looping[·]?) 5 t).toExcept = .error (.depth ⟨.var "f" 0 false, 6, left⟩) ∧
    (∃ visited, FirstStop (looping[·]?) 6 0 t [.body, .fn, .arg, .fn] (.tooDeep visited 6)) ∧
    ∀ s : Session, s.bindings = looping → s.options.bound = 5 →
      (s.evaluateTerm t).expanded = left ∧ (s.evaluateTerm t).session.bindings = looping := by
  intro t left
  have failed : (run (looping[·]?) 5 t).toExcept =
      .error (.depth ⟨.var "f" 0 false, 6, left⟩) := by decide +kernel
  obtain ⟨⟨q, visited, value, same, firstStop, _⟩, _, sessions⟩ :=
    failed_expansion_left holeFree_looping (by decide) failed
  have place : q = [.body, .fn, .arg, .fn] :=
    path_of_stopsAt_aroundLoop firstStop.stops
  have inPlace : left = (run (looping[·]?) 5 t).inPlace t := by
    injection same with same
    injection same
  refine ⟨failed, ⟨visited, place ▸ firstStop⟩, fun s bindings bound => ?_⟩
  have lookup : s.lookup = (looping[·]?) := by
    rw [← bindings]
    rfl
  obtain ⟨_, expanded, unchanged, _⟩ := sessions s lookup bound
  exact ⟨expanded.trans inPlace.symm, unchanged.trans bindings⟩

end Expansion

end UntypedLambda
