import TreePattern.Proofs.Automaton.Acceptance
import TreePattern.Proofs.Automaton.SubsetRows
import TreePattern.Proofs.Condition.Lawful

/-!
# Subset construction keeps the language

A path of the result stays inside the sets that paths of the original reach, and each path of the
original is followed by some path of the result. Tests are grouped by equality, so several
transitions of one set may pass the same value; no single one of them has to account for all the
states that the original reaches.
-/

set_option autoImplicit false

namespace TreePattern

universe u v

namespace Automaton

variable {κ : Type u} {υ : Type v} [BEq κ]

theorem SubsetOf.exists_listed_test {automaton dfa : Automaton κ} {found : List (List Nat)}
    (subset : automaton.SubsetOf dfa found) {index : Nat} {members : List Nat}
    (numbered : found[index]? = some members) {transition : Transition κ}
    (leaving : transition ∈ dfa.transitions index) :
    ∃ test ∈ automaton.testsOfSet members, automaton.Expands found members test transition := by
  obtain ⟨place, bound, rfl⟩ := List.mem_iff_getElem.1 leaving
  have row := subset.row index members numbered
  have testBound : place < (automaton.testsOfSet members).length := by
    rw [row.length_eq]
    exact bound
  exact ⟨_, List.getElem_mem testBound, row.get testBound bound⟩

theorem SubsetOf.exists_test {automaton dfa : Automaton κ} {found : List (List Nat)}
    (subset : automaton.SubsetOf dfa found) {index : Nat} {members : List Nat}
    (numbered : found[index]? = some members) {transition : Transition κ}
    (leaving : transition ∈ dfa.transitions index) :
    ∃ test, automaton.Expands found members test transition := by
  obtain ⟨test, -, expands⟩ := subset.exists_listed_test numbered leaving
  exact ⟨test, expands⟩

theorem SubsetOf.exists_transition {automaton dfa : Automaton κ} {found : List (List Nat)}
    (subset : automaton.SubsetOf dfa found) {index : Nat} {members : List Nat}
    (numbered : found[index]? = some members) {test : κ}
    (listed : test ∈ automaton.testsOfSet members) :
    ∃ transition ∈ dfa.transitions index, automaton.Expands found members test transition := by
  obtain ⟨place, bound, rfl⟩ := List.mem_iff_getElem.1 listed
  have row := subset.row index members numbered
  have rowBound : place < (dfa.transitions index).length := by
    rw [← row.length_eq]
    exact bound
  exact ⟨_, List.getElem_mem rowBound, row.get bound rowBound⟩

theorem SubsetOf.no_epsilon {automaton dfa : Automaton κ} {found : List (List Nat)}
    (subset : automaton.SubsetOf dfa found) {index : Nat} {members : List Nat}
    (numbered : found[index]? = some members) {transition : Transition κ}
    (leaving : transition ∈ dfa.transitions index) : transition.condition ≠ .epsilon := by
  obtain ⟨test, condition, -⟩ := subset.exists_test numbered leaving
  intro silent
  rw [condition] at silent
  cases silent

theorem mem_test_step {automaton : Automaton κ} {members next : List Nat} {test : κ}
    (stepped : automaton.testStep members test = .ok next) (target : Nat) :
    target ∈ next ↔ ∃ first ∈ automaton.testTargets members test,
      automaton.EpsilonReach first target := by
  rw [test_step_eq stepped, StateSet.mem_to_list, mem_closure]
  simp only [StateSet.mem_of_list]

theorem destination_mem_test_step {automaton : Automaton κ} {members next : List Nat}
    {kept test : κ} (stepped : automaton.testStep members kept = .ok next) {state : Nat}
    (inSet : state ∈ members) {edge : Transition κ} (leaving : edge ∈ automaton.transitions state)
    (isTest : edge.condition = .consume test) (equal : (test == kept) = true) :
    edge.destination ∈ next := by
  apply (mem_test_step stepped _).2
  refine ⟨edge.destination, ?_, .refl _⟩
  exact (mem_test_targets ..).2 ⟨state, inSet, edge, leaving, test, isTest, equal, rfl⟩

theorem beq_self_of_test_step [PartialEquivBEq κ] {automaton : Automaton κ}
    {members next : List Nat} {test : κ} (stepped : automaton.testStep members test = .ok next) :
    (test == test) = true := by
  unfold testStep at stepped
  split at stepped
  · cases stepped
  · rename_i targets some
    cases given : automaton.testTargets members test with
    | nil => exact absurd given some
    | cons target rest =>
        have member : target ∈ automaton.testTargets members test := by
          rw [given]
          exact List.mem_cons_self ..
        obtain ⟨-, -, -, -, other, -, equal, -⟩ := (mem_test_targets ..).1 member
        exact PartialEquivBEq.trans (PartialEquivBEq.symm equal) equal

theorem SubsetOf.exists_transition_on [PartialEquivBEq κ] {automaton dfa : Automaton κ}
    {found : List (List Nat)} (subset : automaton.SubsetOf dfa found) {index : Nat}
    {members : List Nat} (numbered : found[index]? = some members) {state : Nat}
    (inSet : state ∈ members) {edge : Transition κ} (leaving : edge ∈ automaton.transitions state)
    {test : κ} (isTest : edge.condition = .consume test) :
    ∃ transition ∈ dfa.transitions index, ∃ kept,
      automaton.Expands found members kept transition ∧ (kept == test) = true := by
  obtain ⟨kept, listed, own, first, second⟩ := tests_of_set_represents inSet leaving isTest
  obtain ⟨transition, inRow, condition, next, stepped, later⟩ :=
    subset.exists_transition numbered listed
  have keptSelf := beq_self_of_test_step stepped
  have keptOwn : (kept == own) = true := by
    rcases second with same | equal
    · exact same ▸ keptSelf
    · exact equal
  have ownSelf : (own == own) = true :=
    PartialEquivBEq.trans (PartialEquivBEq.symm keptOwn) keptOwn
  have ownTest : (own == test) = true := by
    rcases first with same | equal
    · exact same ▸ ownSelf
    · exact equal
  exact ⟨transition, inRow, kept, ⟨condition, next, stepped, later⟩,
    PartialEquivBEq.trans keptOwn ownTest⟩

section Simulation

variable [Matches κ υ] [LawfulTests κ υ]

/-- What a path of the result reaches, paths of the original reach from the set it started in. -/
theorem SubsetOf.path_back {automaton dfa : Automaton κ} {found : List (List Nat)}
    (subset : automaton.SubsetOf dfa found) {source target : Nat} {word : List υ}
    (path : dfa.Path source word target) {members : List Nat}
    (numbered : found[source]? = some members) :
    ∃ reached, found[target]? = some reached ∧
      ∀ state ∈ reached, ∃ origin ∈ members, automaton.Path origin word state := by
  induction path generalizing members with
  | refl =>
      refine ⟨members, numbered, ?_⟩
      intro state member
      exact ⟨state, member, .refl state⟩
  | epsilon leaving silent =>
      exact absurd silent (subset.no_epsilon numbered leaving)
  | @value _ _ transition value word leaving matching _ induction =>
      obtain ⟨test, condition, next, stepped, later⟩ := subset.exists_test numbered leaving
      obtain ⟨reached, final, back⟩ := induction later
      refine ⟨reached, final, ?_⟩
      intro state member
      obtain ⟨middle, inNext, rest⟩ := back state member
      obtain ⟨first, isTarget, reach⟩ := (mem_test_step stepped middle).1 inNext
      obtain ⟨origin, inSet, edge, leavingOrigin, other, edgeTest, equal, rfl⟩ :=
        (mem_test_targets ..).1 isTarget
      have passes : edge.condition.accepts value = true := by
        rw [condition, Condition.accepts_consume] at matching
        rw [edgeTest, Condition.accepts_consume, LawfulTests.passes_eq value equal]
        exact matching
      have onward : automaton.Path edge.destination word state := by
        simpa only [List.nil_append] using reach.path.append rest
      exact ⟨origin, inSet, .value leavingOrigin passes onward⟩

theorem SubsetOf.exists_step {automaton dfa : Automaton κ} {found : List (List Nat)}
    (subset : automaton.SubsetOf dfa found) {index : Nat} {members : List Nat}
    (numbered : found[index]? = some members) {state : Nat} (inSet : state ∈ members)
    {edge : Transition κ} (leaving : edge ∈ automaton.transitions state) {value : υ}
    (matching : edge.condition.accepts value = true) :
    ∃ transition ∈ dfa.transitions index, transition.condition.accepts value = true ∧
      ∃ next, found[transition.destination]? = some next ∧ edge.destination ∈ next := by
  cases edgeTest : edge.condition with
  | epsilon => simp [edgeTest] at matching
  | consume test =>
      obtain ⟨transition, inRow, kept, ⟨condition, next, stepped, later⟩, same⟩ :=
        subset.exists_transition_on numbered inSet leaving edgeTest
      have equal : (test == kept) = true := PartialEquivBEq.symm same
      have inNext := destination_mem_test_step stepped inSet leaving edgeTest equal
      refine ⟨transition, inRow, ?_, next, later, inNext⟩
      rw [edgeTest, Condition.accepts_consume] at matching
      rw [condition, Condition.accepts_consume, ← LawfulTests.passes_eq value equal]
      exact matching

/-- Each path of the original from a member of a set is followed by a path of the result. -/
theorem SubsetOf.path_forth {automaton dfa : Automaton κ} {found : List (List Nat)}
    (subset : automaton.SubsetOf dfa found) {source target : Nat} {word : List υ}
    (path : automaton.Path source word target) {index : Nat} {members : List Nat}
    (numbered : found[index]? = some members) (inSet : source ∈ members) :
    ∃ final reached, dfa.Path index word final ∧ found[final]? = some reached ∧
      target ∈ reached := by
  induction path generalizing index members with
  | refl => exact ⟨index, members, .refl index, numbered, inSet⟩
  | epsilon leaving silent _ induction =>
      have closed := subset.closed members (List.mem_of_getElem? numbered)
      exact induction numbered (closed.mem_of_reach inSet (.step leaving silent (.refl _)))
  | value leaving matching _ induction =>
      obtain ⟨transition, inRow, passes, next, later, member⟩ :=
        subset.exists_step numbered inSet leaving matching
      obtain ⟨final, reached, rest, found, inReached⟩ := induction later member
      exact ⟨final, reached, .value inRow passes rest, found, inReached⟩

theorem SubsetOf.start_path_back {automaton dfa : Automaton κ} {found : List (List Nat)}
    (subset : automaton.SubsetOf dfa found) {final : Nat} {word : List υ}
    (path : dfa.Path dfa.start word final) :
    ∃ reached, found[final]? = some reached ∧
      ∀ state ∈ reached, automaton.Path automaton.start word state := by
  rw [subset.start] at path
  obtain ⟨reached, numbered, back⟩ := subset.path_back path subset.first
  refine ⟨reached, numbered, ?_⟩
  intro state member
  obtain ⟨origin, inFirst, rest⟩ := back state member
  simpa only [List.nil_append] using (epsilon_reach_of_mem_first inFirst).path.append rest

theorem SubsetOf.start_path_forth {automaton dfa : Automaton κ} {found : List (List Nat)}
    (subset : automaton.SubsetOf dfa found) {target : Nat} {word : List υ}
    (path : automaton.Path automaton.start word target) :
    ∃ final reached, dfa.Path dfa.start word final ∧ found[final]? = some reached ∧
      target ∈ reached := by
  rw [subset.start]
  exact subset.path_forth path subset.first automaton.start_mem_first

theorem SubsetOf.has_accepting_path_iff {automaton dfa : Automaton κ} {found : List (List Nat)}
    (subset : automaton.SubsetOf dfa found) (word : List υ) :
    dfa.HasAcceptingPath word ↔ automaton.HasAcceptingPath word := by
  constructor
  · intro accepting
    obtain ⟨final, path, accepts⟩ := accepting
    obtain ⟨reached, numbered, back⟩ := subset.start_path_back path
    obtain ⟨members, same, state, member, isAccepting⟩ := (subset.accepting final).1 accepts
    rw [numbered] at same
    cases same
    exact ⟨state, back state member, isAccepting⟩
  · intro accepting
    obtain ⟨target, path, accepts⟩ := accepting
    obtain ⟨final, reached, rest, numbered, member⟩ := subset.start_path_forth path
    exact ⟨final, rest, (subset.accepting final).2 ⟨reached, numbered, target, member, accepts⟩⟩

/-- The reduced automaton accepts the same words, for literals of any lawful values and for node
tests alike: whatever the epsilon cycles, repeated or overlapping transitions, and states without a
row. -/
theorem to_dfa_accepts_same_words (automaton dfa : Automaton κ)
    (reduced : automaton.toDfa = .ok dfa) (word : List υ) :
    dfa.accepts word = automaton.accepts word := by
  obtain ⟨found, subset⟩ := subset_of_to_dfa reduced
  rw [Bool.eq_iff_iff, accepts_iff_accepting_path, accepts_iff_accepting_path]
  exact subset.has_accepting_path_iff word

end Simulation

/-- Any number of `num` nodes with a last one of value 1: the two tests overlap, a silent cycle
joins the first two states, and one transition is listed twice. -/
def numbers : Automaton NodeTest where
  start := 0
  accepting := .ofList [2]
  table := TransitionTable.empty
    |>.add 0 .epsilon 1
    |>.add 1 .epsilon 0
    |>.add 1 (.consume { symbol := "num" }) 1
    |>.add 0 (.consume { symbol := "num", value := some "1" }) 2
    |>.add 0 (.consume { symbol := "num", value := some "1" }) 2

def numbersReduced : Automaton NodeTest where
  start := 0
  accepting := .ofList [1]
  table := ⟨#[[⟨.consume { symbol := "num", value := some "1" }, 1⟩,
    ⟨.consume { symbol := "num" }, 0⟩], []]⟩

theorem to_dfa_accepts_same_words_numbers :
    let one : Node Unit := { symbol := "num", value := some "1" }
    numbers.toDfa = .ok numbersReduced ∧ numbers.accepts [one, one] = true ∧
      numbersReduced.accepts [one, one] = numbers.accepts [one, one] :=
  ⟨rfl, by decide +kernel, to_dfa_accepts_same_words numbers numbersReduced rfl _⟩

end Automaton

end TreePattern
