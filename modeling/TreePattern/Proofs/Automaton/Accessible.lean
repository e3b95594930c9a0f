import Mathlib.Data.Set.Basic
import TreePattern.Proofs.Automaton.Unambiguous
import TreePattern.Proofs.Automaton.Worklist

/-!
# The accessible subset automaton

Subset construction is described by sets alone: from the closure of the start, sets are obtained by
taking the closure of all destinations on some test that leaves the set. The result has exactly one
state for each obtainable set, all of them reachable, and its transitions are the steps between the
sets. If the tests of the automaton equal themselves, the construction ends with such a result.
-/

set_option autoImplicit false

namespace TreePattern

universe u

namespace Automaton

variable {κ : Type u}

section Sets

def silentClosure (automaton : Automaton κ) (states : Set Nat) : Set Nat :=
  {target | ∃ source ∈ states, automaton.EpsilonReach source target}

def LeavesOn (automaton : Automaton κ) (states : Set Nat) (test : κ) : Prop :=
  ∃ source ∈ states, ∃ transition ∈ automaton.transitions source,
    transition.condition = .consume test

/-- Where transitions on tests equal to the given one lead from the set, with all that is then
within epsilon reach. -/
def stepSet [BEq κ] (automaton : Automaton κ) (states : Set Nat) (test : κ) : Set Nat :=
  automaton.silentClosure {target | ∃ source ∈ states, ∃ transition ∈ automaton.transitions source,
    ∃ other, transition.condition = .consume other ∧ (other == test) = true ∧
      transition.destination = target}

/-- The sets that steps lead to from the closure of the start. -/
inductive Obtainable [BEq κ] (automaton : Automaton κ) : Set Nat → Prop where
  | start : Obtainable automaton (automaton.silentClosure {automaton.start})
  | step {states : Set Nat} {test : κ} (obtained : Obtainable automaton states)
      (leaves : automaton.LeavesOn states test) :
      Obtainable automaton (automaton.stepSet states test)

end Sets

inductive Reaches (automaton : Automaton κ) (source : Nat) : Nat → Prop where
  | here : Reaches automaton source source
  | along {state : Nat} {transition : Transition κ} (reached : Reaches automaton source state)
      (leaving : transition ∈ automaton.transitions state) :
      Reaches automaton source transition.destination

variable [BEq κ]

/-- `dfa` is the accessible subset automaton: `sets` tells which set each of its states stands
for. -/
structure AccessibleSubsets (automaton dfa : Automaton κ) (sets : Nat → Set Nat) : Prop where
  start : dfa.start = 0
  loud : ∀ state, ∀ transition ∈ dfa.transitions state, transition.condition ≠ .epsilon
  reachable : ∀ state, state < dfa.stateCount ↔ dfa.Reaches 0 state
  apart : ∀ state, (dfa.transitions state).Pairwise fun first second => ∀ left right,
    first.condition = .consume left → second.condition = .consume right → (left == right) = false
  first : sets 0 = automaton.silentClosure {automaton.start}
  injective : ∀ left right, left < dfa.stateCount → right < dfa.stateCount →
    sets left = sets right → left = right
  onto : ∀ states, automaton.Obtainable states ↔ ∃ state < dfa.stateCount, sets state = states
  follows : ∀ state, ∀ transition ∈ dfa.transitions state,
    state < dfa.stateCount ∧ transition.destination < dfa.stateCount ∧
      ∃ test, transition.condition = .consume test ∧ automaton.LeavesOn (sets state) test ∧
        sets transition.destination = automaton.stepSet (sets state) test
  complete : ∀ state < dfa.stateCount, ∀ test, automaton.LeavesOn (sets state) test →
    ∃ transition ∈ dfa.transitions state, ∃ kept,
      transition.condition = .consume kept ∧ (kept == test) = true
  accepting : ∀ state, dfa.isAccepting state = true ↔
    state < dfa.stateCount ∧ ∃ member ∈ sets state, automaton.isAccepting member = true

section Lists

variable {automaton : Automaton κ} {members next : List Nat} {test : κ}

def listed (members : List Nat) : Set Nat := {state | state ∈ members}

omit [BEq κ] in
theorem listed_start (automaton : Automaton κ) :
    listed (automaton.closure (.ofList [automaton.start])).toList =
      automaton.silentClosure {automaton.start} := by
  ext state
  change state ∈ (automaton.closure (.ofList [automaton.start])).toList ↔
    ∃ source ∈ ({automaton.start} : Set Nat), automaton.EpsilonReach source state
  rw [StateSet.mem_to_list, mem_closure]
  simp only [StateSet.mem_of_list, List.mem_singleton, Set.mem_singleton_iff]

theorem listed_test_step (stepped : automaton.testStep members test = .ok next) :
    listed next = automaton.stepSet (listed members) test := by
  ext state
  change state ∈ next ↔ _
  rw [mem_test_step stepped]
  simp only [mem_test_targets]
  rfl

theorem leaves_on_of_mem_tests (isTest : test ∈ automaton.testsOfSet members) :
    automaton.LeavesOn (listed members) test :=
  mem_tests_of_set isTest

theorem step_set_congr [PartialEquivBEq κ] (automaton : Automaton κ) (states : Set Nat)
    {left right : κ} (same : (left == right) = true) :
    automaton.stepSet states left = automaton.stepSet states right := by
  have turn (other : κ) : (other == left) = true ↔ (other == right) = true := by
    constructor
    · intro equal
      exact PartialEquivBEq.trans equal same
    · intro equal
      exact PartialEquivBEq.trans equal (PartialEquivBEq.symm same)
  simp only [stepSet, turn]

theorem Exhausts.obtainable {found : List (List Nat)} {rows : Array (List (Transition κ))}
    (exhausts : automaton.Exhausts [(automaton.closure (.ofList [automaton.start])).toList] #[]
      found rows) :
    ∀ members ∈ found, automaton.Obtainable (listed members) := by
  apply exhausts.forall_found fun members => automaton.Obtainable (listed members)
  · intro members test next obtained isTest stepped
    rw [listed_test_step stepped]
    exact .step obtained (leaves_on_of_mem_tests isTest)
  · intro members isFirst
    rw [List.mem_singleton.1 isFirst, listed_start]
    exact .start

end Lists

namespace SubsetOf

variable {automaton dfa : Automaton κ} {found : List (List Nat)}

theorem lt_count_iff (subset : automaton.SubsetOf dfa found) (state : Nat) :
    state < dfa.stateCount ↔ ∃ members, found[state]? = some members := by
  rw [subset.count]
  constructor
  · intro bound
    exact ⟨_, List.getElem?_eq_getElem bound⟩
  · intro numbered
    obtain ⟨members, numbered⟩ := numbered
    exact (List.getElem?_eq_some_iff.1 numbered).1

def setOf (found : List (List Nat)) (state : Nat) : Set Nat := listed (found[state]?.getD [])

theorem set_of_eq {state : Nat} {members : List Nat} (numbered : found[state]? = some members) :
    setOf found state = listed members := by
  rw [setOf, numbered]
  rfl

theorem set_of_injective (subset : automaton.SubsetOf dfa found) {left right : Nat}
    (leftBound : left < dfa.stateCount) (rightBound : right < dfa.stateCount)
    (same : setOf found left = setOf found right) : left = right := by
  obtain ⟨members, numbered⟩ := (subset.lt_count_iff left).1 leftBound
  obtain ⟨others, otherNumbered⟩ := (subset.lt_count_iff right).1 rightBound
  rw [set_of_eq numbered, set_of_eq otherNumbered] at same
  have equal : members = others :=
    (subset.closed members (List.mem_of_getElem? numbered)).eq_of_mem_iff
      (subset.closed others (List.mem_of_getElem? otherNumbered)) (Set.ext_iff.1 same)
  have known := (List.getElem?_eq_some_iff.1 numbered).1
  exact (List.getElem?_inj known subset.distinct).1 (numbered.trans (equal ▸ otherNumbered.symm))

theorem follows (subset : automaton.SubsetOf dfa found) {state : Nat} {transition : Transition κ}
    (leaving : transition ∈ dfa.transitions state) :
    state < dfa.stateCount ∧ transition.destination < dfa.stateCount ∧
      ∃ test, transition.condition = .consume test ∧
        automaton.LeavesOn (setOf found state) test ∧
        setOf found transition.destination = automaton.stepSet (setOf found state) test := by
  obtain ⟨members, numbered⟩ := subset.exists_members leaving
  obtain ⟨test, isTest, condition, next, stepped, later⟩ :=
    subset.exists_listed_test numbered leaving
  refine ⟨(subset.lt_count_iff state).2 ⟨members, numbered⟩,
    (subset.lt_count_iff _).2 ⟨next, later⟩, test, condition, ?_, ?_⟩
  · rw [set_of_eq numbered]
    exact leaves_on_of_mem_tests isTest
  · rw [set_of_eq numbered, set_of_eq later, listed_test_step stepped]

theorem conditions_eq (subset : automaton.SubsetOf dfa found) {state : Nat} {members : List Nat}
    (numbered : found[state]? = some members) :
    (dfa.transitions state).map (·.condition) = (automaton.testsOfSet members).map .consume := by
  have row := subset.row state members numbered
  generalize automaton.testsOfSet members = tests, dfa.transitions state = transitions at row
  induction row with
  | nil => rfl
  | cons expands _ induction => rw [List.map_cons, List.map_cons, expands.1, induction]

theorem apart_conditions (subset : automaton.SubsetOf dfa found) (state : Nat) :
    (dfa.transitions state).Pairwise fun first second => ∀ left right,
      first.condition = .consume left → second.condition = .consume right →
        (left == right) = false := by
  cases transitions : dfa.transitions state with
  | nil => exact .nil
  | cons transition rest =>
      rw [← transitions]
      have leaving : transition ∈ dfa.transitions state := transitions ▸ List.mem_cons_self
      obtain ⟨members, numbered⟩ := subset.exists_members leaving
      have tests : Apart (automaton.testsOfSet members) := apart_distinct _
      have conditions : ((automaton.testsOfSet members).map Condition.consume).Pairwise
          fun first second => ∀ left right, first = .consume left → second = .consume right →
            (left == right) = false := by
        rw [List.pairwise_map]
        apply tests.imp
        intro kept later different left right isLeft isRight
        cases isLeft
        cases isRight
        exact different
      rw [← subset.conditions_eq numbered, List.pairwise_map] at conditions
      exact conditions

section Complete

variable [PartialEquivBEq κ]

theorem complete (subset : automaton.SubsetOf dfa found) {state : Nat}
    (bound : state < dfa.stateCount) {test : κ}
    (leaves : automaton.LeavesOn (setOf found state) test) :
    ∃ transition ∈ dfa.transitions state, ∃ kept,
      transition.condition = .consume kept ∧ (kept == test) = true := by
  obtain ⟨members, numbered⟩ := (subset.lt_count_iff state).1 bound
  rw [set_of_eq numbered] at leaves
  obtain ⟨source, inSet, edge, leaving, isTest⟩ := leaves
  obtain ⟨transition, inRow, kept, expands, same⟩ :=
    subset.exists_transition_on numbered inSet leaving isTest
  exact ⟨transition, inRow, kept, expands.1, same⟩

theorem exists_reached (subset : automaton.SubsetOf dfa found) {states : Set Nat}
    (obtained : automaton.Obtainable states) :
    ∃ state < dfa.stateCount, dfa.Reaches 0 state ∧ setOf found state = states := by
  induction obtained with
  | start =>
      refine ⟨0, (subset.lt_count_iff 0).2 ⟨_, subset.first⟩, .here, ?_⟩
      rw [set_of_eq subset.first, listed_start]
  | @step states test _ leaves reached =>
      obtain ⟨state, bound, reaches, same⟩ := reached
      rw [← same] at leaves
      obtain ⟨transition, inRow, kept, condition, equal⟩ := subset.complete bound leaves
      obtain ⟨-, destinationBound, other, sameCondition, -, step⟩ := subset.follows inRow
      rw [condition, Condition.consume.injEq] at sameCondition
      subst sameCondition
      refine ⟨transition.destination, destinationBound, reaches.along inRow, ?_⟩
      rw [step, same, step_set_congr automaton states equal]

theorem reaches_iff (subset : automaton.SubsetOf dfa found)
    (obtainable : ∀ members ∈ found, automaton.Obtainable (listed members)) (state : Nat) :
    state < dfa.stateCount ↔ dfa.Reaches 0 state := by
  constructor
  · intro bound
    obtain ⟨members, numbered⟩ := (subset.lt_count_iff state).1 bound
    obtain ⟨other, otherBound, reaches, same⟩ :=
      subset.exists_reached (obtainable members (List.mem_of_getElem? numbered))
    rw [← set_of_eq numbered] at same
    rw [← subset.set_of_injective otherBound bound same]
    exact reaches
  · intro reaches
    cases reaches with
    | here => exact (subset.lt_count_iff 0).2 ⟨_, subset.first⟩
    | along _ leaving => exact (subset.follows leaving).2.1

/-- A complete numbering of obtainable sets is the accessible subset automaton. -/
theorem accessible (subset : automaton.SubsetOf dfa found)
    (obtainable : ∀ members ∈ found, automaton.Obtainable (listed members)) :
    automaton.AccessibleSubsets dfa (setOf found) where
  start := subset.start
  loud state transition leaving := by
    obtain ⟨members, numbered⟩ := subset.exists_members leaving
    exact subset.no_epsilon numbered leaving
  reachable := subset.reaches_iff obtainable
  apart := subset.apart_conditions
  first := by rw [set_of_eq subset.first, listed_start]
  injective left right leftBound rightBound := subset.set_of_injective leftBound rightBound
  onto states := by
    constructor
    · intro obtained
      obtain ⟨state, bound, -, same⟩ := subset.exists_reached obtained
      exact ⟨state, bound, same⟩
    · intro stands
      obtain ⟨state, bound, same⟩ := stands
      obtain ⟨members, numbered⟩ := (subset.lt_count_iff state).1 bound
      rw [← same, set_of_eq numbered]
      exact obtainable members (List.mem_of_getElem? numbered)
  follows state transition leaving := subset.follows leaving
  complete state bound test leaves := subset.complete bound leaves
  accepting state := by
    rw [subset.accepting, subset.lt_count_iff]
    constructor
    · intro accepts
      obtain ⟨members, numbered, member, inSet, accepting⟩ := accepts
      refine ⟨⟨members, numbered⟩, member, ?_, accepting⟩
      rw [set_of_eq numbered]
      exact inSet
    · intro accepts
      obtain ⟨⟨members, numbered⟩, member, inSet, accepting⟩ := accepts
      rw [set_of_eq numbered] at inSet
      exact ⟨members, numbered, member, inSet, accepting⟩

end Complete

end SubsetOf

/-- If all tests equal themselves, the worklist of subset construction runs to its end by itself,
and the result is the accessible subset automaton: one state for each obtainable set. -/
theorem to_dfa_accessible_subsets [PartialEquivBEq κ] (automaton : Automaton κ)
    (reflexive : ∀ test, automaton.HasTest test → (test == test) = true) :
    ∃ dfa sets, automaton.toDfa = .ok dfa ∧ automaton.AccessibleSubsets dfa sets ∧
      ∃ found, automaton.Exhausts [(automaton.closure (.ofList [automaton.start])).toList] #[]
        found dfa.table.rows := by
  obtain ⟨dfa, reduced⟩ := exists_to_dfa reflexive
  obtain ⟨found, rows, exhausts, rfl, subset⟩ := exhausts_of_to_dfa reduced
  exact ⟨_, SubsetOf.setOf found, reduced, subset.accessible exhausts.obtainable, found, exhausts⟩

/-- Zero with a sign, as a literal: the two zeros are equal but not the same. -/
def signedZero (negative : Bool) : Literal Binary64 := ⟨.finite negative ⟨0, by decide⟩⟩

def infinity : Literal Binary64 := ⟨.infinite false⟩

/-- A silent cycle joins the first two states, which are left on different zeros. -/
def zeros : Automaton (Literal Binary64) where
  start := 0
  accepting := .ofList [3]
  table := TransitionTable.empty
    |>.add 0 .epsilon 1
    |>.add 0 (.consume (signedZero false)) 2
    |>.add 1 .epsilon 0
    |>.add 1 (.consume (signedZero true)) 3
    |>.add 2 (.consume infinity) 0
    |>.add 3 (.consume (signedZero false)) 3

def zerosReduced : Automaton (Literal Binary64) where
  start := 0
  accepting := .ofList [1, 2]
  table := ⟨#[[⟨.consume (signedZero false), 1⟩],
    [⟨.consume infinity, 0⟩, ⟨.consume (signedZero false), 2⟩],
    [⟨.consume (signedZero false), 2⟩]]⟩

theorem to_dfa_accessible_subsets_zeros :
    (∀ test, zeros.HasTest test → (test == test) = true) ∧ zeros.toDfa = .ok zerosReduced ∧
      ∃ sets, zeros.AccessibleSubsets zerosReduced sets := by
  have reflexive : ∀ test, zeros.HasTest test → (test == test) = true := by
    have listed : ∀ test ∈ zeros.table.toList.filterMap (·.2.condition.test?),
        (test == test) = true := by
      decide +kernel
    intro test stands
    exact listed test ((has_test_iff zeros test).1 stands)
  have reduced : zeros.toDfa = .ok zerosReduced := rfl
  obtain ⟨dfa, sets, same, accessible, -⟩ := to_dfa_accessible_subsets zeros reflexive
  rw [reduced, Except.ok.injEq] at same
  subst same
  exact ⟨reflexive, reduced, sets, accessible⟩

end Automaton

end TreePattern
