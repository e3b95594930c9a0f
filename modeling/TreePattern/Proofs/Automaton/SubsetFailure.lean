import TreePattern.Proofs.Automaton.Accessible

/-!
# When subset construction fails

A test that differs from itself stands on a transition, yet no transition is on a test equal to it.
The construction fails as soon as it meets such a test on a transition out of a found set, and it
fails for no other reason. It meets one exactly if a state that transitions lead to from the start
is left on one. The construction cannot follow transitions on such tests, but it has failed already
where the first of them begins.
-/

set_option autoImplicit false

namespace TreePattern

universe u

namespace Automaton

variable {κ : Type u} [BEq κ] {automaton dfa : Automaton κ} {found : List (List Nat)}

section Failures

variable {members : List Nat} {failure : Failure}

theorem test_step_failure {test : κ}
    (failed : automaton.testStep members test = .error failure) : failure = .noDestination := by
  unfold testStep at failed
  split at failed
  · cases failed
    rfl
  · cases failed

theorem expand_set_failure {tests : List κ}
    (failed : automaton.expandSet members tests found = .error failure) :
    failure = .noDestination := by
  induction tests generalizing found with
  | nil => cases failed
  | cons test rest induction =>
      unfold expandSet at failed
      split at failed
      · rename_i other stepFailed
        cases failed
        exact test_step_failure stepFailed
      · dsimp only at failed
        split at failed
        · rename_i other restFailed
          cases failed
          exact induction restFailed
        · cases failed

theorem expand_sets_failure {count : Nat} {rows : Array (List (Transition κ))}
    (failed : automaton.expandSets count found rows = .error failure) :
    failure = .noDestination := by
  induction count generalizing found rows with
  | zero => cases failed
  | succ count induction =>
      unfold expandSets at failed
      split at failed
      · cases failed
      · split at failed
        · rename_i other setFailed
          cases failed
          exact expand_set_failure setFailed
        · exact induction failed

theorem to_dfa_failure (failed : automaton.toDfa = .error failure) :
    failure = .noDestination := by
  unfold toDfa at failed
  dsimp only at failed
  split at failed
  · rename_i other setsFailed
    cases failed
    exact expand_sets_failure setsFailed
  · cases failed

end Failures

section Stalling

variable {rows finalRows : Array (List (Transition κ))} {final : List (List Nat)}

inductive Stalls (automaton : Automaton κ) :
    List (List Nat) → Array (List (Transition κ)) → Prop where
  | here {found : List (List Nat)} {rows : Array (List (Transition κ))} {members : List Nat}
      {failure : Failure} (next : found[rows.size]? = some members)
      (failed :
        automaton.expandSet members (automaton.testsOfSet members) found = .error failure) :
      Stalls automaton found rows
  | later {found after : List (List Nat)} {rows : Array (List (Transition κ))}
      {members : List Nat} {row : List (Transition κ)} (next : found[rows.size]? = some members)
      (expanded :
        automaton.expandSet members (automaton.testsOfSet members) found = .ok (row, after))
      (rest : Stalls automaton after (rows.push row)) : Stalls automaton found rows

theorem stalls_of_expand_sets {count : Nat} {failure : Failure}
    (failed : automaton.expandSets count found rows = .error failure) :
    automaton.Stalls found rows := by
  induction count generalizing found rows with
  | zero => cases failed
  | succ count induction =>
      unfold expandSets at failed
      split at failed
      · cases failed
      · rename_i members next
        split at failed
        · rename_i other setFailed
          exact .here next setFailed
        · rename_i row after expanded
          exact .later next expanded (induction failed)

theorem Exhausts.not_stalls (exhausts : automaton.Exhausts found rows final finalRows) :
    ¬ automaton.Stalls found rows := by
  induction exhausts with
  | done complete =>
      intro stalls
      cases stalls with
      | here next | later next =>
          rw [complete] at next
          cases next
  | expand next expanded _ later =>
      intro stalls
      cases stalls with
      | here sameNext failed =>
          cases next.symm.trans sameNext
          cases expanded.symm.trans failed
      | later sameNext sameExpanded rest =>
          cases next.symm.trans sameNext
          cases expanded.symm.trans sameExpanded
          exact later rest

/-- The count of the construction hides no failure and adds none. -/
theorem stalls_iff_to_dfa_fails (automaton : Automaton κ) :
    automaton.Stalls [(automaton.closure (.ofList [automaton.start])).toList] #[] ↔
      automaton.toDfa = .error .noDestination := by
  constructor
  · intro stalls
    cases outcome : automaton.toDfa with
    | error failure => rw [to_dfa_failure outcome]
    | ok dfa =>
        obtain ⟨found, rows, exhausts, -⟩ := exhausts_of_to_dfa outcome
        exact absurd stalls exhausts.not_stalls
  · intro failed
    unfold toDfa at failed
    dsimp only at failed
    split at failed
    · rename_i failure setsFailed
      exact stalls_of_expand_sets setsFailed
    · cases failed

end Stalling

section Reached

variable {origin source target : Nat}

omit [BEq κ] in
theorem EpsilonReach.reaches (reached : automaton.Reaches origin source)
    (reach : automaton.EpsilonReach source target) : automaton.Reaches origin target := by
  apply reach.keeps _ reached
  intro state reached next leads
  obtain ⟨transition, leaving, -, rfl⟩ := (mem_epsilon_targets ..).1 leads
  exact reached.along leaving

theorem reaches_of_mem_test_step {members next : List Nat} {test : κ}
    (reached : ∀ state ∈ members, automaton.Reaches origin state)
    (stepped : automaton.testStep members test = .ok next) :
    ∀ state ∈ next, automaton.Reaches origin state := by
  intro state member
  obtain ⟨first, isTarget, reach⟩ := (mem_test_step stepped state).1 member
  obtain ⟨source, inSet, transition, leaving, -, -, -, rfl⟩ := (mem_test_targets ..).1 isTarget
  exact reach.reaches ((reached source inSet).along leaving)

/-- Tests that only unreachable states are left on do not matter. -/
theorem exists_to_dfa_of_reached
    (reflexive : ∀ state, automaton.Reaches automaton.start state →
      ∀ transition ∈ automaton.transitions state, ∀ test,
        transition.condition = .consume test → (test == test) = true) :
    ∃ dfa, automaton.toDfa = .ok dfa := by
  apply exists_to_dfa_of_steps fun members =>
    ∀ state ∈ members, automaton.Reaches automaton.start state
  · intro state member
    exact (epsilon_reach_of_mem_first member).reaches .here
  · intro members reached test listed
    obtain ⟨state, inSet, transition, leaving, isTest⟩ := mem_tests_of_set listed
    have equal := reflexive state (reached state inSet) transition leaving test isTest
    obtain ⟨next, stepped⟩ := exists_test_step listed equal
    exact ⟨next, stepped, reaches_of_mem_test_step reached stepped⟩

end Reached

section Complete

variable [PartialEquivBEq κ]

theorem SubsetOf.exists_set_of_transition (subset : automaton.SubsetOf dfa found)
    {members : List Nat} (inFound : members ∈ found) {state : Nat} (inSet : state ∈ members)
    {transition : Transition κ} (leaving : transition ∈ automaton.transitions state) :
    ∃ next ∈ found, transition.destination ∈ next := by
  cases condition : transition.condition with
  | epsilon =>
      have closed := subset.closed members inFound
      exact ⟨members, inFound, closed.mem_of_reach inSet (.step leaving condition (.refl _))⟩
  | consume test =>
      obtain ⟨index, numbered⟩ := List.mem_iff_getElem?.1 inFound
      obtain ⟨edge, -, kept, ⟨-, next, stepped, later⟩, same⟩ :=
        subset.exists_transition_on numbered inSet leaving condition
      have equal : (test == kept) = true := PartialEquivBEq.symm same
      exact ⟨next, List.mem_of_getElem? later,
        destination_mem_test_step stepped inSet leaving condition equal⟩

theorem SubsetOf.exists_set_of_reaches (subset : automaton.SubsetOf dfa found) {state : Nat}
    (reaches : automaton.Reaches automaton.start state) : ∃ members ∈ found, state ∈ members := by
  induction reaches with
  | here => exact ⟨_, List.mem_of_getElem? subset.first, automaton.start_mem_first⟩
  | along _ leaving induction =>
      obtain ⟨members, inFound, inSet⟩ := induction
      exact subset.exists_set_of_transition inFound inSet leaving

theorem SubsetOf.beq_self_of_reaches (subset : automaton.SubsetOf dfa found) {state : Nat}
    (reaches : automaton.Reaches automaton.start state) {transition : Transition κ}
    (leaving : transition ∈ automaton.transitions state) {test : κ}
    (isTest : transition.condition = .consume test) : (test == test) = true := by
  obtain ⟨members, inFound, inSet⟩ := subset.exists_set_of_reaches reaches
  obtain ⟨index, numbered⟩ := List.mem_iff_getElem?.1 inFound
  obtain ⟨-, -, kept, -, same⟩ := subset.exists_transition_on numbered inSet leaving isTest
  exact PartialEquivBEq.trans (PartialEquivBEq.symm same) same

/-- Subset construction fails, for want of a destination, exactly if some state that transitions of
any kind lead to from the start is left on a test that differs from itself; without its count, the
worklist stalls just then. It fails in no other way. If all tests equal themselves, as node tests
and literals of strings, characters and integers do, it returns. -/
theorem to_dfa_fails_iff_reaches_unequal_test (automaton : Automaton κ) :
    (automaton.toDfa = .error .noDestination ↔
      ∃ state, automaton.Reaches automaton.start state ∧
        ∃ transition ∈ automaton.transitions state, ∃ test,
          transition.condition = .consume test ∧ (test == test) = false) ∧
      (automaton.Stalls [(automaton.closure (.ofList [automaton.start])).toList] #[] ↔
        automaton.toDfa = .error .noDestination) ∧
      Failure.message .noDestination = "no destination states for a condition" ∧
      (∀ failure, automaton.toDfa = .error failure → failure = .noDestination) ∧
      (ReflBEq κ → ∃ dfa, automaton.toDfa = .ok dfa) := by
  refine ⟨⟨?_, ?_⟩, automaton.stalls_iff_to_dfa_fails, rfl, fun _ => to_dfa_failure, ?_⟩
  · intro failed
    by_contra none
    -- The worklist meets tests on reachable states only, and these would all equal themselves.
    obtain ⟨dfa, reduced⟩ : ∃ dfa, automaton.toDfa = .ok dfa := by
      apply exists_to_dfa_of_reached
      intro state reaches transition leaving test isTest
      rw [← Bool.not_eq_false]
      exact fun unequal => none ⟨state, reaches, transition, leaving, test, isTest, unequal⟩
    rw [failed] at reduced
    cases reduced
  · intro meets
    obtain ⟨state, reaches, transition, leaving, test, isTest, unequal⟩ := meets
    cases outcome : automaton.toDfa with
    | error failure => rw [to_dfa_failure outcome]
    | ok dfa =>
        obtain ⟨found, subset⟩ := subset_of_to_dfa outcome
        have equal := subset.beq_self_of_reaches reaches leaving isTest
        rw [unequal] at equal
        cases equal
  · intro reflexive
    exact exists_to_dfa fun test _ => reflexive.rfl

end Complete

def notANumber : Literal Binary64 := ⟨.nan⟩

/-- State 2 is left on not-a-number, and only not-a-number leads there. -/
def behindNan : Automaton (Literal Binary64) where
  start := 0
  accepting := .ofList [3]
  table := TransitionTable.empty
    |>.add 0 (.consume infinity) 1
    |>.add 1 .epsilon 0
    |>.add 1 (.consume notANumber) 2
    |>.add 2 (.consume notANumber) 3

/-- State 4 is left on not-a-number, but nothing leads there. -/
def besideNan : Automaton (Literal Binary64) where
  start := 0
  accepting := .ofList [0]
  table := TransitionTable.empty
    |>.add 0 (.consume infinity) 0
    |>.add 4 (.consume notANumber) 0

def besideNanReduced : Automaton (Literal Binary64) where
  start := 0
  accepting := .ofList [0]
  table := ⟨#[[⟨.consume infinity, 0⟩]]⟩

theorem to_dfa_fails_iff_reaches_unequal_test_nan :
    behindNan.toDfa = .error .noDestination ∧
      besideNan.toDfa = .ok besideNanReduced ∧
      (¬ ∃ state, besideNan.Reaches besideNan.start state ∧
        ∃ transition ∈ besideNan.transitions state, ∃ test,
          transition.condition = .consume test ∧ (test == test) = false) ∧
      (∀ automaton : Automaton (Literal String), ∃ dfa, automaton.toDfa = .ok dfa) ∧
      (∀ automaton : Automaton (Literal Char), ∃ dfa, automaton.toDfa = .ok dfa) ∧
      (∀ automaton : Automaton (Literal Int), ∃ dfa, automaton.toDfa = .ok dfa) ∧
      ∀ automaton : Automaton NodeTest, ∃ dfa, automaton.toDfa = .ok dfa := by
  have reduced : besideNan.toDfa = .ok besideNanReduced := rfl
  have first : ⟨.consume infinity, 1⟩ ∈ behindNan.transitions 0 := List.mem_singleton_self _
  have second : ⟨.consume notANumber, 2⟩ ∈ behindNan.transitions 1 :=
    List.mem_cons_of_mem _ (List.mem_singleton_self _)
  have third : ⟨.consume notANumber, 3⟩ ∈ behindNan.transitions 2 := List.mem_singleton_self _
  have behind : behindNan.Reaches behindNan.start 2 := (Reaches.here.along first).along second
  refine ⟨?_, reduced, ?_, ?_, ?_, ?_, ?_⟩
  · apply (to_dfa_fails_iff_reaches_unequal_test behindNan).1.2
    exact ⟨2, behind, _, third, notANumber, rfl, rfl⟩
  · rw [← (to_dfa_fails_iff_reaches_unequal_test besideNan).1, reduced]
    exact fun failed => nomatch failed
  · exact fun automaton => (to_dfa_fails_iff_reaches_unequal_test automaton).2.2.2.2 inferInstance
  · exact fun automaton => (to_dfa_fails_iff_reaches_unequal_test automaton).2.2.2.2 inferInstance
  · exact fun automaton => (to_dfa_fails_iff_reaches_unequal_test automaton).2.2.2.2 inferInstance
  · exact fun automaton => (to_dfa_fails_iff_reaches_unequal_test automaton).2.2.2.2 inferInstance

end Automaton

end TreePattern
