import TreePattern.Proofs.Automaton.Accessible

/-!
# Subset construction on its own result

A result of subset construction has no silent transitions and no equal tests in one row. Each state
is therefore a closed set of its own, and its tests are those of its row. The second construction
finds the states in the order of their numbers, each in the step in which the first one found the
set behind it, and so gives the same automaton once more.
-/

set_option autoImplicit false

namespace TreePattern

universe u

namespace Automaton

section Singletons

def singletons (count : Nat) : List (List Nat) := (List.range count).map fun state => [state]

@[simp] theorem length_singletons (count : Nat) : (singletons count).length = count := by
  rw [singletons, List.length_map, List.length_range]

theorem get_singletons {count state : Nat} (bound : state < count) :
    (singletons count)[state]? = some [state] := by
  rw [singletons, List.getElem?_map, List.getElem?_range bound]
  rfl

theorem singletons_succ (count : Nat) :
    singletons (count + 1) = singletons count ++ [[count]] := by
  rw [singletons, List.range_succ, List.map_append]
  rfl

theorem idx_of_singletons {count state : Nat} (bound : state < count) :
    (singletons count).idxOf? [state] = some state := by
  apply List.idxOf?_eq_some_iff.2
  refine ⟨(length_singletons count).symm ▸ bound, ?_, ?_⟩
  · simp only [singletons, List.getElem_map, List.getElem_range]
  · intro earlier before same
    simp only [singletons, List.getElem_map, List.getElem_range, List.cons.injEq, and_true]
      at same
    omega

theorem idx_of_singletons_self (count : Nat) : (singletons count).idxOf? [count] = none := by
  apply List.idxOf?_eq_none_iff.2
  intro listed
  obtain ⟨state, inRange, same⟩ := List.mem_map.1 listed
  rw [List.mem_range, List.singleton_inj.1 same] at inRange
  exact absurd inRange (Nat.lt_irrefl count)

theorem number_singletons (found : List (List Nat)) (members : List Nat) :
    number (singletons found.length) [(number found members).1] =
      ((number found members).1, singletons (number found members).2.length) := by
  cases known : found.idxOf? members with
  | some index =>
      obtain ⟨bound, -⟩ := List.idxOf?_eq_some_iff.1 known
      simp only [number, known, idx_of_singletons bound]
  | none =>
      simp only [number, known, idx_of_singletons_self, length_singletons, List.length_append,
        List.length_singleton, singletons_succ]

end Singletons

variable {κ : Type u} [BEq κ]

namespace SubsetOf

variable {automaton dfa : Automaton κ} {found : List (List Nat)}

theorem eq_of_epsilon_reach (subset : automaton.SubsetOf dfa found) {source target : Nat}
    (reach : dfa.EpsilonReach source target) : source = target := by
  cases reach with
  | refl => rfl
  | step leaving silent rest =>
      obtain ⟨members, numbered⟩ := subset.exists_members leaving
      exact absurd silent (subset.no_epsilon numbered leaving)

theorem closure_singleton (subset : automaton.SubsetOf dfa found) (state : Nat) :
    (dfa.closure (.ofList [state])).toList = [state] := by
  apply (StateSet.to_list_increasing _).eq_of_mem_iff (List.pairwise_singleton _ _)
  intro other
  rw [StateSet.mem_to_list, mem_closure]
  constructor
  · intro reached
    obtain ⟨source, isState, reach⟩ := reached
    rw [StateSet.mem_of_list] at isState
    exact subset.eq_of_epsilon_reach reach ▸ isState
  · intro isState
    exact ⟨other, (StateSet.mem_of_list ..).2 isState, .refl other⟩

theorem tests_of_singleton (subset : automaton.SubsetOf dfa found) {state : Nat}
    {members : List Nat} (numbered : found[state]? = some members) :
    dfa.testsOfSet [state] = automaton.testsOfSet members := by
  have apart : Apart (automaton.testsOfSet members) := apart_distinct _
  have row : (dfa.transitions state).filterMap (·.condition.test?) =
      automaton.testsOfSet members := by
    have conditions := congrArg (List.filterMap Condition.test?) (subset.conditions_eq numbered)
    rw [List.filterMap_map, List.filterMap_map] at conditions
    exact conditions.trans List.filterMap_some
  have own : dfa.testsOf state = automaton.testsOfSet members := by
    rw [testsOf, row, distinct_of_apart apart]
  rw [testsOfSet, List.flatMap_singleton, own, distinct_of_apart apart]

/-- The sets of the result are its own states again, so their numbering changes nothing. -/
theorem of_sets_singletons (subset : automaton.SubsetOf dfa found)
    {rows : Array (List (Transition κ))} (made : dfa = automaton.ofSets found rows) :
    dfa.ofSets (singletons found.length) rows = dfa := by
  have accepting : ∀ index ∈ List.range found.length,
      ((singletons found.length)[index]?.getD []).any dfa.isAccepting =
        (found[index]?.getD []).any automaton.isAccepting := by
    intro index inRange
    have bound := List.mem_range.1 inRange
    rw [get_singletons bound, Option.getD_some, List.any_cons, List.any_nil, Bool.or_false,
      Bool.eq_iff_iff, subset.accepting, List.getElem?_eq_getElem bound, Option.getD_some,
      List.any_eq_true]
    constructor
    · intro accepts
      obtain ⟨members, numbered, accepts⟩ := accepts
      cases numbered
      exact accepts
    · intro accepts
      exact ⟨_, rfl, accepts⟩
  calc
    dfa.ofSets (singletons found.length) rows = automaton.ofSets found rows := by
      rw [ofSets, ofSets, length_singletons, List.filter_congr accepting]
    _ = dfa := made.symm

variable [PartialEquivBEq κ]

theorem step_singleton (subset : automaton.SubsetOf dfa found) {state : Nat}
    {transition : Transition κ} (leaving : transition ∈ dfa.transitions state) {test : κ}
    (isTest : transition.condition = .consume test) :
    dfa.testStep [state] test = .ok [transition.destination] := by
  obtain ⟨members, numbered⟩ := subset.exists_members leaving
  obtain ⟨own, listed, same, next, stepped, -⟩ := subset.exists_listed_test numbered leaving
  rw [isTest, Condition.consume.injEq] at same
  subst same
  have reflexive := beq_self_of_test_step stepped
  rw [← subset.tests_of_singleton numbered] at listed
  obtain ⟨targets, reached⟩ := exists_test_step listed reflexive
  rw [reached, Except.ok.injEq]
  apply (is_closed_test_step reached).increasing.eq_of_mem_iff (List.pairwise_singleton _ _)
  intro target
  rw [List.mem_singleton]
  constructor
  · intro arrived
    obtain ⟨first, isTarget, reach⟩ := (mem_test_step reached target).1 arrived
    obtain ⟨source, isState, edge, leavingSource, other, edgeTest, equal, rfl⟩ :=
      (mem_test_targets ..).1 isTarget
    rw [List.mem_singleton.1 isState] at leavingSource
    rw [← subset.eq_of_epsilon_reach reach]
    exact subset.destination_eq leavingSource leaving edgeTest isTest equal
  · intro isDestination
    subst isDestination
    exact destination_mem_test_step reached (List.mem_singleton_self state) leaving isTest
      reflexive

theorem expand_singleton (subset : automaton.SubsetOf dfa found) {state : Nat}
    {members : List Nat} {tests : List κ} {before after : List (List Nat)}
    {row : List (Transition κ)}
    (expanded : automaton.expandSet members tests before = .ok (row, after))
    (within : ∀ transition ∈ row, transition ∈ dfa.transitions state) :
    dfa.expandSet [state] tests (singletons before.length) =
      .ok (row, singletons after.length) := by
  induction tests generalizing before row with
  | nil =>
      cases expanded
      rfl
  | cons test rest induction =>
      unfold expandSet at expanded
      split at expanded
      · cases expanded
      · rename_i next stepped
        dsimp only at expanded
        split at expanded
        · cases expanded
        · rename_i restRow final restExpanded
          cases expanded
          have leaving := within _ List.mem_cons_self
          have others := induction restExpanded fun transition member =>
            within transition (List.mem_cons_of_mem _ member)
          simp only [expandSet, subset.step_singleton leaving rfl, number_singletons, others]

/-- The worklist on the result keeps in step with the worklist that made it: after each step as many
states are known as there were sets. -/
theorem exhausts_singletons (subset : automaton.SubsetOf dfa found)
    {before : List (List Nat)} {rows : Array (List (Transition κ))}
    (exhausts : automaton.Exhausts before rows found dfa.table.rows) :
    dfa.Exhausts (singletons before.length) rows (singletons found.length) dfa.table.rows := by
  -- The sets found at the end stay fixed: they decide the result, whose rows both worklists share.
  generalize final : dfa.table.rows = finalRows at exhausts
  induction exhausts with
  | done complete =>
      apply Exhausts.done
      rw [List.getElem?_eq_none_iff] at complete ⊢
      rwa [length_singletons]
  | @expand before after found rows finalRows members row next expanded rest later =>
      have bound := (List.getElem?_eq_some_iff.1 next).1
      have keeps := (expansion_of_expand_set expanded).keeps.trans rest.found_prefix
      have numbered := get_of_prefix keeps next
      have rowThere : dfa.transitions rows.size = row := by
        rw [transitions, TransitionTable.transitions, final, rest.get_pushed_row, Option.getD_some]
      have again : dfa.expandSet [rows.size] (dfa.testsOfSet [rows.size])
          (singletons before.length) = .ok (row, singletons after.length) := by
        rw [subset.tests_of_singleton numbered]
        apply subset.expand_singleton expanded
        intro transition member
        rw [rowThere]
        exact member
      exact .expand (get_singletons bound) again (later subset final)

end SubsetOf

/-- Subset construction on its own result succeeds and gives exactly this result: the same start,
accepting states, number of states, and transitions in the same order. -/
theorem to_dfa_idempotent [PartialEquivBEq κ] (automaton dfa : Automaton κ)
    (reduced : automaton.toDfa = .ok dfa) : dfa.toDfa = .ok dfa := by
  obtain ⟨found, rows, exhausts, made, subset⟩ := exhausts_of_to_dfa reduced
  have table : dfa.table.rows = rows := by
    rw [made]
    rfl
  subst table
  have again := subset.exhausts_singletons exhausts
  have first : [(dfa.closure (.ofList [dfa.start])).toList] = singletons 1 := by
    rw [subset.start, subset.closure_singleton]
    rfl
  rw [List.length_singleton, ← first] at again
  rw [again.to_dfa, subset.of_sets_singletons made]

theorem to_dfa_idempotent_zeros :
    zeros.toDfa = .ok zerosReduced ∧ zerosReduced.toDfa = .ok zerosReduced :=
  ⟨rfl, to_dfa_idempotent zeros zerosReduced rfl⟩

end Automaton

end TreePattern
