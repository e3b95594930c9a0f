import TreePattern.Proofs.Automaton.SubsetLanguage
import TreePattern.Proofs.Automaton.SubsetTotal

/-!
# When the first matching transition is the only way

If all transitions of a state that match a value lead to the same state, and none is silent, then
following first matching transitions is the only path. Subset construction arrives there if tests
that pass a common value are equal, however many states of the original a set holds: the tests of
one set are those of all its members, and equal tests lead to the same set.
-/

set_option autoImplicit false

namespace TreePattern

universe u v

namespace Automaton

variable {κ : Type u} {υ : Type v} [Matches κ υ]

/-- No transition is silent, and those that match a value in a state agree on the next state. -/
structure Unambiguous (automaton : Automaton κ) (υ : Type v) [Matches κ υ] : Prop where
  loud : ∀ state, ∀ transition ∈ automaton.transitions state, transition.condition ≠ .epsilon
  agree : ∀ (state : Nat) (value : υ), ∀ first ∈ automaton.transitions state,
    ∀ second ∈ automaton.transitions state, first.condition.accepts value = true →
      second.condition.accepts value = true → first.destination = second.destination

def TestsApart [BEq κ] (automaton : Automaton κ) (υ : Type v) [Matches κ υ] : Prop :=
  ∀ left right, automaton.HasTest left → automaton.HasTest right → ∀ value : υ,
    Matches.passes left value = true → Matches.passes right value = true →
      (left == right) = true

theorem Unambiguous.destination_eq {automaton : Automaton κ}
    (unambiguous : automaton.Unambiguous υ) {state : Nat} {transition : Transition κ}
    (leaving : transition ∈ automaton.transitions state) {value : υ}
    (matching : transition.condition.accepts value = true) :
    automaton.destination? state value = some transition.destination := by
  unfold destination? TransitionTable.destination?
  cases found : (automaton.table.transitions state).find? (·.condition.accepts value) with
  | none =>
      have refused := List.find?_eq_none.1 found transition leaving
      exact absurd matching refused
  | some first =>
      have isLeaving := List.mem_of_find?_eq_some found
      have accepts : first.condition.accepts value = true := by
        simpa using List.find?_some found
      rw [Option.map_some,
        unambiguous.agree state value first isLeaving transition leaving accepts matching]

/-- Following first matching transitions is the only path. -/
theorem Unambiguous.run_first_iff_path {automaton : Automaton κ}
    (unambiguous : automaton.Unambiguous υ) (source target : Nat) (word : List υ) :
    automaton.runFirst? source word = some target ↔ automaton.Path source word target := by
  constructor
  · exact path_of_run_first
  · intro path
    induction path with
    | refl => rfl
    | epsilon leaving silent => exact absurd silent (unambiguous.loud _ _ leaving)
    | value leaving matching _ induction =>
        rw [runFirst?, unambiguous.destination_eq leaving matching]
        exact induction

theorem test_step_congr [BEq κ] [PartialEquivBEq κ] (automaton : Automaton κ) (members : List Nat)
    {left right : κ} (same : (left == right) = true) :
    automaton.testStep members left = automaton.testStep members right := by
  have targets : automaton.testTargets members left = automaton.testTargets members right := by
    unfold testTargets
    apply congrArg (members.flatMap ·)
    funext state
    apply congrArg (List.map _)
    apply List.filter_congr
    intro transition _
    cases transition.condition.test? with
    | none => rfl
    | some other =>
        rw [Bool.eq_iff_iff]
        constructor
        · intro equal
          exact PartialEquivBEq.trans equal same
        · intro equal
          exact PartialEquivBEq.trans equal (PartialEquivBEq.symm same)
  unfold testStep
  rw [targets]

theorem SubsetOf.exists_members [BEq κ] {automaton dfa : Automaton κ} {found : List (List Nat)}
    (subset : automaton.SubsetOf dfa found) {state : Nat} {transition : Transition κ}
    (leaving : transition ∈ dfa.transitions state) : ∃ members, found[state]? = some members := by
  cases numbered : found[state]? with
  | some members => exact ⟨members, rfl⟩
  | none =>
      have count : dfa.table.rows.size = found.length := subset.count
      have outside : dfa.table.rows.size ≤ state := by
        rw [count]
        exact List.getElem?_eq_none_iff.1 numbered
      unfold transitions TransitionTable.transitions at leaving
      rw [Array.getElem?_eq_none outside] at leaving
      exact absurd leaving List.not_mem_nil

theorem SubsetOf.destination_eq [BEq κ] [PartialEquivBEq κ] {automaton dfa : Automaton κ}
    {found : List (List Nat)} (subset : automaton.SubsetOf dfa found) {state : Nat}
    {first second : Transition κ} (isFirst : first ∈ dfa.transitions state)
    (isSecond : second ∈ dfa.transitions state) {left right : κ}
    (leftCondition : first.condition = .consume left)
    (rightCondition : second.condition = .consume right) (equal : (left == right) = true) :
    first.destination = second.destination := by
  obtain ⟨members, numbered⟩ := subset.exists_members isFirst
  obtain ⟨firstTest, firstSame, next, firstStep, firstNumber⟩ :=
    subset.exists_test numbered isFirst
  obtain ⟨secondTest, secondSame, other, secondStep, secondNumber⟩ :=
    subset.exists_test numbered isSecond
  rw [leftCondition, Condition.consume.injEq] at firstSame
  rw [rightCondition, Condition.consume.injEq] at secondSame
  subst firstSame
  subst secondSame
  rw [test_step_congr automaton members equal, secondStep, Except.ok.injEq] at firstStep
  subst firstStep
  have known := (List.getElem?_eq_some_iff.1 firstNumber).1
  exact (List.getElem?_inj known subset.distinct).1 (firstNumber.trans secondNumber.symm)

theorem SubsetOf.unambiguous [BEq κ] [LawfulTests κ υ] {automaton dfa : Automaton κ}
    {found : List (List Nat)} (subset : automaton.SubsetOf dfa found)
    (apart : automaton.TestsApart υ) : dfa.Unambiguous υ := by
  constructor
  · intro state transition leaving
    obtain ⟨members, numbered⟩ := subset.exists_members leaving
    exact subset.no_epsilon numbered leaving
  · intro state value first isFirst second isSecond firstMatches secondMatches
    obtain ⟨members, numbered⟩ := subset.exists_members isFirst
    obtain ⟨left, leftListed, leftCondition, -⟩ := subset.exists_listed_test numbered isFirst
    obtain ⟨right, rightListed, rightCondition, -⟩ := subset.exists_listed_test numbered isSecond
    rw [leftCondition, Condition.accepts_consume] at firstMatches
    rw [rightCondition, Condition.accepts_consume] at secondMatches
    have equal := apart left right (has_test_of_mem_tests_of_set leftListed)
      (has_test_of_mem_tests_of_set rightListed) value firstMatches secondMatches
    exact subset.destination_eq isFirst isSecond leftCondition rightCondition equal

end Automaton

end TreePattern
