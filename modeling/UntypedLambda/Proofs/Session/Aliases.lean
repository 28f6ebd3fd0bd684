import UntypedLambda.Proofs.Session.Environment

/-! # How the environment lists names

The definitions, in the order of their names, are cut into groups of one value fingerprint, and a
group stands where the first of its definitions does.  So the groups together are the definitions
again, in another order, each group is part of their list, and so are the first members.

Main statements: `perm_flatten_groups`, `heads_groups_sublist`, `environment_lists_once`. -/
set_option autoImplicit false

namespace UntypedLambda

/-! ## Groups -/

section Groups
variable {α κ : Type} [BEq κ] [LawfulBEq κ] (key : α → κ)

/-- The members of a list by their keys, in the order in which the keys first appear. -/
def groups (l : List α) : List (List α) :=
  (l.map key).eraseDups.map fun k => l.filter (key · == k)

/-- The first group is that of the first member; the others are those of what is left. -/
theorem groups_cons (x : α) (l : List α) : groups key (x :: l) =
    (x :: l.filter (key · == key x)) :: groups key (l.filter (key · != key x)) := by
  have others : (l.map key).filter (fun k => !k == key x) =
      (l.filter (key · != key x)).map key := by
    rw [List.filter_map]
    rfl
  rw [groups, List.map_cons, List.eraseDups_cons, others, List.map_cons, groups]
  congr 1
  · exact List.filter_cons_of_pos (beq_self_eq_true (key x))
  · apply List.map_congr_left
    intro k member
    obtain ⟨y, inside, rfl⟩ := List.mem_map.mp (List.mem_eraseDups.mp member)
    have apart : key y ≠ key x := by simpa using (List.mem_filter.mp inside).2
    rw [List.filter_cons_of_neg (by simpa using apart.symm), List.filter_filter]
    -- members with that key are among those that are left
    apply List.filter_congr
    intro z _
    by_cases same : key z = key y
    · simp [same, apart]
    · simp [same]

/-- No member is lost, and none is in two groups. -/
theorem perm_flatten_groups : (l : List α) → (groups key l).flatten.Perm l
  | [] => .nil
  | x :: l => by
      have rest := perm_flatten_groups (l.filter (key · != key x))
      rw [groups_cons, List.flatten_cons, List.cons_append, List.perm_cons]
      exact (rest.append_left _).trans (List.filter_append_perm (key · == key x) l)
termination_by l => l.length
decreasing_by exact Nat.lt_succ_of_le (List.length_filter_le _ _)

/-- Groups stand in the order in which their first members stood. -/
theorem heads_groups_sublist : (l : List α) → ((groups key l).filterMap List.head?).Sublist l
  | [] => .slnil
  | x :: l => by
      have rest := heads_groups_sublist (l.filter (key · != key x))
      rw [groups_cons, List.filterMap_cons]
      exact (rest.trans List.filter_sublist).cons_cons x
termination_by l => l.length
decreasing_by exact Nat.lt_succ_of_le (List.length_filter_le _ _)

end Groups

namespace Session

/-! ## Lines -/

/-- The names in a group, with the definition of the first of them. -/
def Aliases.ofGroup? : List (String × Term) → Option Aliases
  | [] => none
  | first :: rest => some ⟨(first :: rest).map (·.1), first.2⟩

theorem aliases_eq_groups (s : Session) : s.aliases =
    (groups (·.2.valueFingerprint) s.bindings.toList).filterMap Aliases.ofGroup? := by
  rw [aliases_eq, groups, List.filterMap_map]
  rfl

theorem flatMap_names_ofGroup (l : List (List (String × Term))) :
    (l.filterMap Aliases.ofGroup?).flatMap (·.names) = l.flatten.map (·.1) := by
  induction l with
  | nil => rfl
  | cons group l ih =>
      cases group with
      | nil => exact ih
      | cons first rest => simp [Aliases.ofGroup?, ih]

theorem heads_ofGroup (l : List (List (String × Term))) :
    (l.filterMap Aliases.ofGroup?).filterMap (·.names.head?) =
      (l.filterMap List.head?).map (·.1) := by
  induction l with
  | nil => rfl
  | cons group l ih =>
      cases group with
      | nil => exact ih
      | cons first rest => simp [Aliases.ofGroup?, ih]

/-- Definitions are listed by their names, each of which has one. -/
theorem pairwise_names_toList (s : Session) :
    (s.bindings.toList.map (·.1)).Pairwise (· < ·) := by
  have ordered : s.bindings.keys.Pairwise fun a b => compare a b = .lt :=
    Std.TreeMap.ordered_keys
  rw [Std.TreeMap.map_fst_toList_eq_keys]
  exact ordered.imp fun before => compareOfLessAndEq_eq_lt.mp before

theorem count_names_toList (s : Session) (name : String) :
    (s.bindings.toList.map (·.1)).count name = if name ∈ s.bindings then 1 else 0 := by
  have distinct : (s.bindings.toList.map (·.1)).Nodup := by
    refine (pairwise_names_toList s).imp ?_
    rintro a _ before rfl
    exact String.lt_irrefl a before
  rw [distinct.count, Std.TreeMap.map_fst_toList_eq_keys]
  simp only [Std.TreeMap.mem_keys]

/-- The environment lists every bound name once and no other, each line in order and the lines in
the order of their first names, with the definition that the first name has. -/
theorem environment_lists_once (s : Session) :
    (∀ argument, (s.command (.env argument)).1 = "Current bindings:\n" ++
      String.join (s.aliases.map fun a =>
        ", ".intercalate a.names ++ ":\t" ++ a.term.text ++ "\n")) ∧
    (∀ name, (s.aliases.flatMap (·.names)).count name = if name ∈ s.bindings then 1 else 0) ∧
    (∀ a ∈ s.aliases, a.names.Pairwise (· < ·) ∧
      ∃ name, a.names.head? = some name ∧ s.lookup name = some a.term) ∧
    (s.aliases.filterMap (·.names.head?)).Pairwise (· < ·) := by
  have sorted := pairwise_names_toList s
  refine ⟨fun _ => rfl, fun name => ?_, fun a line => ⟨?_, lookup_head_of_mem_aliases line⟩, ?_⟩
  · have listed := (perm_flatten_groups (·.2.valueFingerprint) s.bindings.toList).map (·.1)
    rw [aliases_eq_groups, flatMap_names_ofGroup, listed.count_eq, count_names_toList]
  · obtain ⟨first, rest, group, rfl⟩ := mem_aliases.mp line
    have part : (first :: rest).Sublist s.bindings.toList := group ▸ List.filter_sublist
    exact sorted.sublist (part.map (·.1))
  · have part := heads_groups_sublist (·.2.valueFingerprint) s.bindings.toList
    rw [aliases_eq_groups, heads_ofGroup]
    exact sorted.sublist (part.map (·.1))

/-- `λx. x` twice and `y` between them. -/
def tabled : Session :=
  { new {} with
    bindings := ((Std.TreeMap.empty.insert "b" (.abs "x" 1 (.var "x" 1 false))).insert
      "c" (.var "y" 0 false)).insert "d" (.abs "x" 2 (.var "x" 2 false)) }

theorem names_tabled : tabled.aliases.map (·.names) = [["b", "d"], ["c"]] := by
  decide +kernel

/-- The first line names `b` and `d`, and shows what `b` is. -/
theorem environment_lists_once_tabled :
    (tabled.aliases.flatMap (·.names)).count "d" = 1 ∧
      ∃ a ∈ tabled.aliases, a.names = ["b", "d"] ∧ a.names.Pairwise (· < ·) ∧
        ∃ name, a.names.head? = some name ∧ tabled.lookup name = some a.term := by
  obtain ⟨_, once, lines, _⟩ := environment_lists_once tabled
  have first : ["b", "d"] ∈ tabled.aliases.map (·.names) := by simp [names_tabled]
  obtain ⟨a, line, names⟩ := List.mem_map.mp first
  exact ⟨(once "d").trans (by decide +kernel), a, line, names, lines a line⟩

end Session

end UntypedLambda
