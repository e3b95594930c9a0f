import Mathlib.Data.List.Basic
import TreePattern.Automaton.Table

/-!
# The transitions of a table in the order of their sources

Entries with a key are put in the order of the keys by a stable sort, which is told apart from other
sorted lists by its groups: the entries with one key stand in the order that they had before. A
table that holds a log row by row therefore lists the log sorted by source.
-/

set_option autoImplicit false

namespace TreePattern

universe u

section Groups

variable {α : Type u} {left right : List (Nat × α)}

def keyLe (first second : Nat × α) : Bool := decide (first.1 ≤ second.1)

theorem key_le_trans (first second third : Nat × α) (forth : keyLe first second = true)
    (further : keyLe second third = true) : keyLe first third = true := by
  simp only [keyLe, decide_eq_true_eq] at forth further ⊢
  exact Nat.le_trans forth further

theorem key_le_total (first second : Nat × α) :
    (keyLe first second || keyLe second first) = true := by
  simp only [keyLe, Bool.or_eq_true, decide_eq_true_eq]
  exact Nat.le_total first.1 second.1

theorem head_key_le {entry other : Nat × α}
    (sorted : (entry :: left).Pairwise fun first second => keyLe first second = true)
    (member : other ∈ entry :: left) : entry.1 ≤ other.1 := by
  rcases List.mem_cons.1 member with same | later
  · exact Nat.le_of_eq (congrArg Prod.fst same.symm)
  · exact of_decide_eq_true (List.rel_of_pairwise_cons sorted later)

theorem mem_of_same_groups
    (same : ∀ key, left.filter (·.1 == key) = right.filter (·.1 == key)) {entry : Nat × α}
    (member : entry ∈ left) : entry ∈ right := by
  have grouped : entry ∈ left.filter (·.1 == entry.1) :=
    List.mem_filter.2 ⟨member, beq_self_eq_true _⟩
  rw [same] at grouped
  exact List.mem_of_mem_filter grouped

/-- Sorted lists are equal if, key by key, they hold the same entries in the same order. -/
theorem eq_of_same_groups
    (leftSorted : left.Pairwise fun first second => keyLe first second = true)
    (rightSorted : right.Pairwise fun first second => keyLe first second = true)
    (same : ∀ key, left.filter (·.1 == key) = right.filter (·.1 == key)) : left = right := by
  induction left generalizing right with
  | nil =>
      cases right with
      | nil => rfl
      | cons entry right => simpa using same entry.1
  | cons entry left induction =>
      cases right with
      | nil => simpa using same entry.1
      | cons other right =>
          -- Both heads have the least key, so they lead the same group.
          have forth := head_key_le leftSorted
            (mem_of_same_groups (fun key => (same key).symm) List.mem_cons_self)
          have back := head_key_le rightSorted (mem_of_same_groups same List.mem_cons_self)
          have sameKey : other.1 = entry.1 := Nat.le_antisymm back forth
          have group := same entry.1
          simp only [List.filter_cons, sameKey, beq_self_eq_true, if_true, List.cons.injEq] at group
          rw [group.1]
          apply congrArg
          apply induction leftSorted.of_cons rightSorted.of_cons
          intro key
          by_cases isKey : entry.1 = key
          · rw [← isKey]
            exact group.2
          · simpa [List.filter_cons, sameKey, isKey] using same key

/-- Sorting is stable: entries with one key keep their order. -/
theorem filter_merge_sort (list : List (Nat × α)) (key : Nat) :
    (list.mergeSort keyLe).filter (·.1 == key) = list.filter (·.1 == key) := by
  have sameKeys : (list.filter (·.1 == key)).Pairwise fun first second =>
      keyLe first second = true := by
    apply List.pairwise_of_forall_mem_list
    intro first inFirst second inSecond
    have firstKey := (List.mem_filter.1 inFirst).2
    have secondKey := (List.mem_filter.1 inSecond).2
    simp only [beq_iff_eq] at firstKey secondKey
    simp only [keyLe, firstKey, secondKey, Nat.le_refl, decide_true]
  -- A group is in order as it stands, so the sort keeps it; being as long, it is the whole group.
  have inSorted : (list.filter (·.1 == key)).Sublist (list.mergeSort keyLe) :=
    List.sublist_mergeSort key_le_trans key_le_total sameKeys List.filter_sublist
  have inGroup := inSorted.filter (·.1 == key)
  rw [List.filter_filter] at inGroup
  simp only [Bool.and_self] at inGroup
  have count := ((list.mergeSort_perm keyLe).filter (·.1 == key)).length_eq
  exact (inGroup.eq_of_length count.symm).symm

end Groups

variable {κ : Type u}

def leaving (log : List (Nat × Transition κ)) (state : Nat) : List (Transition κ) :=
  (log.filter (·.1 == state)).map (·.2)

theorem leaving_append (log more : List (Nat × Transition κ)) (state : Nat) :
    leaving (log ++ more) state = leaving log state ++ leaving more state := by
  rw [leaving, List.filter_append, List.map_append]
  rfl

theorem map_leaving (log : List (Nat × Transition κ)) (state : Nat) :
    (leaving log state).map (fun transition => (state, transition)) =
      log.filter (·.1 == state) := by
  rw [leaving, List.map_map]
  have same : ∀ entry ∈ log.filter (·.1 == state), (state, entry.2) = entry := by
    intro entry member
    have isState : entry.1 = state := beq_iff_eq.1 (List.mem_filter.1 member).2
    rw [← isState]
  exact (List.map_congr_left same).trans (List.map_id _)

namespace TransitionTable

theorem filter_row (row : List (Transition κ)) (source state : Nat) :
    (row.map fun transition => (source, transition)).filter (·.1 == state) =
      if source = state then row.map fun transition => (source, transition) else [] := by
  split
  · rename_i same
    apply List.filter_eq_self.2
    intro entry member
    rcases List.mem_map.1 member with ⟨transition, -, rfl⟩
    exact beq_iff_eq.2 same
  · rename_i different
    apply List.filter_eq_nil_iff.2
    intro entry member
    rcases List.mem_map.1 member with ⟨transition, -, rfl⟩
    exact fun same => different (beq_iff_eq.1 same)

theorem filter_rows (rows : Nat → List (Transition κ)) (count state : Nat) :
    ((List.range count).flatMap fun source =>
        (rows source).map fun transition => (source, transition)).filter (·.1 == state) =
      if state < count then (rows state).map fun transition => (state, transition) else [] := by
  induction count with
  | zero => rfl
  | succ count induction =>
      rw [List.range_succ, List.flatMap_append, List.filter_append, induction,
        List.flatMap_singleton, filter_row]
      by_cases last : count = state
      · subst last
        simp
      · have bounds : state < count ↔ state < count + 1 := by omega
        simp [last, bounds]

theorem filter_to_list (table : TransitionTable κ) (state : Nat) :
    table.toList.filter (·.1 == state) =
      (table.transitions state).map fun transition => (state, transition) := by
  rw [toList, filter_rows]
  split
  · rfl
  · rename_i outside
    have noRow : table.rows[state]? = none := Array.getElem?_eq_none (Nat.le_of_not_lt outside)
    rw [transitions, noRow]
    rfl

theorem pairwise_to_list (table : TransitionTable κ) :
    table.toList.Pairwise fun first second => keyLe first second = true := by
  rw [toList, List.pairwise_flatMap]
  constructor
  · intro state _
    apply List.pairwise_map.2
    apply List.pairwise_of_forall
    intro first second
    exact decide_eq_true (Nat.le_refl state)
  · apply List.pairwise_lt_range.imp
    intro source later isLess first inFirst second inSecond
    rcases List.mem_map.1 inFirst with ⟨transition, -, rfl⟩
    rcases List.mem_map.1 inSecond with ⟨other, -, rfl⟩
    exact decide_eq_true (Nat.le_of_lt isLess)

theorem to_list_eq_merge_sort {table : TransitionTable κ} {log : List (Nat × Transition κ)}
    (rows : ∀ state, table.transitions state = leaving log state) :
    table.toList = log.mergeSort keyLe := by
  apply eq_of_same_groups table.pairwise_to_list
    (List.pairwise_mergeSort key_le_trans key_le_total log)
  intro state
  rw [filter_merge_sort, filter_to_list, rows, map_leaving]

end TransitionTable

end TreePattern
