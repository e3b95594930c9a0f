import TreePattern.Proofs.Automaton.SubsetRows

/-!
# Subset construction returns

The construction fails only on a test that does not equal itself: any other test of a set stands on
a transition out of a member, whose destination is then reached on the test.
-/

set_option autoImplicit false

namespace TreePattern

universe u

namespace Automaton

variable {κ : Type u} {automaton : Automaton κ}

def HasTest (automaton : Automaton κ) (test : κ) : Prop :=
  ∃ state, ∃ transition ∈ automaton.transitions state, transition.condition = .consume test

theorem has_test_iff (automaton : Automaton κ) (test : κ) :
    automaton.HasTest test ↔ test ∈ automaton.table.toList.filterMap (·.2.condition.test?) := by
  simp only [HasTest, List.mem_filterMap, Condition.test_eq_some_iff]
  constructor
  · intro stands
    obtain ⟨state, transition, leaving, isTest⟩ := stands
    exact ⟨(state, transition), (TransitionTable.mem_to_list ..).2 leaving, isTest⟩
  · intro listed
    obtain ⟨⟨state, transition⟩, member, isTest⟩ := listed
    exact ⟨state, transition, (TransitionTable.mem_to_list ..).1 member, isTest⟩

variable [BEq κ]

theorem has_test_of_mem_tests_of_set {members : List Nat} {test : κ}
    (listed : test ∈ automaton.testsOfSet members) : automaton.HasTest test := by
  obtain ⟨state, -, transition, leaving, isTest⟩ := mem_tests_of_set listed
  exact ⟨state, transition, leaving, isTest⟩

theorem exists_test_step {members : List Nat} {test : κ}
    (listed : test ∈ automaton.testsOfSet members) (reflexive : (test == test) = true) :
    ∃ next, automaton.testStep members test = .ok next := by
  obtain ⟨state, inSet, transition, leaving, isTest⟩ := mem_tests_of_set listed
  have reached : transition.destination ∈ automaton.testTargets members test :=
    (mem_test_targets ..).2 ⟨state, inSet, transition, leaving, test, isTest, reflexive, rfl⟩
  unfold testStep
  split
  · rename_i nothing
    rw [nothing] at reached
    exact absurd reached List.not_mem_nil
  · exact ⟨_, rfl⟩

theorem exists_expand_set {members : List Nat} {tests : List κ}
    (steps : ∀ test ∈ tests, ∃ next, automaton.testStep members test = .ok next)
    (found : List (List Nat)) :
    ∃ row after, automaton.expandSet members tests found = .ok (row, after) := by
  induction tests generalizing found with
  | nil => exact ⟨[], found, rfl⟩
  | cons test rest induction =>
      obtain ⟨next, stepped⟩ := steps test List.mem_cons_self
      obtain ⟨row, after, expanded⟩ :=
        induction (fun other member => steps other (List.mem_cons_of_mem test member))
          (number found next).2
      refine ⟨⟨.consume test, (number found next).1⟩ :: row, after, ?_⟩
      simp only [expandSet, stepped, expanded]

theorem exists_expand_sets (Holds : List Nat → Prop)
    (steps : ∀ members, Holds members → ∀ test ∈ automaton.testsOfSet members,
      ∃ next, automaton.testStep members test = .ok next ∧ Holds next)
    (count : Nat) {found : List (List Nat)} (hold : ∀ members ∈ found, Holds members)
    (rows : Array (List (Transition κ))) :
    ∃ final finalRows, automaton.expandSets count found rows = .ok (final, finalRows) := by
  induction count generalizing found rows with
  | zero => exact ⟨found, rows, rfl⟩
  | succ count induction =>
      unfold expandSets
      cases next : found[rows.size]? with
      | none => exact ⟨found, rows, rfl⟩
      | some members =>
          have known := steps members (hold members (List.mem_of_getElem? next))
          obtain ⟨row, after, expanded⟩ := exists_expand_set
            (fun test listed => (known test listed).imp fun _ => And.left) found
          have later : ∀ set ∈ after, Holds set := by
            intro set member
            rcases (expansion_of_expand_set expanded).origin set member with old | new
            · exact hold set old
            · obtain ⟨test, listed, stepped⟩ := new
              obtain ⟨other, same, holds⟩ := known test listed
              rw [stepped, Except.ok.injEq] at same
              exact same ▸ holds
          simp only [expanded]
          exact induction later (rows.push row)

theorem exists_to_dfa_of_steps (Holds : List Nat → Prop)
    (first : Holds (automaton.closure (.ofList [automaton.start])).toList)
    (steps : ∀ members, Holds members → ∀ test ∈ automaton.testsOfSet members,
      ∃ next, automaton.testStep members test = .ok next ∧ Holds next) :
    ∃ dfa, automaton.toDfa = .ok dfa := by
  obtain ⟨found, rows, expanded⟩ := exists_expand_sets Holds steps
    (Nat.pow 2 (automaton.table.toList.length + 1)) (List.forall_mem_singleton.2 first) #[]
  unfold toDfa
  simp only [expanded]
  exact ⟨_, rfl⟩

/-- An automaton whose tests all equal themselves can be reduced. -/
theorem exists_to_dfa (reflexive : ∀ test, automaton.HasTest test → (test == test) = true) :
    ∃ dfa, automaton.toDfa = .ok dfa := by
  apply exists_to_dfa_of_steps (fun _ => True) trivial
  intro members _ test listed
  obtain ⟨next, stepped⟩ :=
    exists_test_step listed (reflexive test (has_test_of_mem_tests_of_set listed))
  exact ⟨next, stepped, trivial⟩

end Automaton

end TreePattern
