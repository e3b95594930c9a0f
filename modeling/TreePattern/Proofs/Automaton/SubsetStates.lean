import Mathlib.Data.Finset.Powerset
import Mathlib.Data.Finset.Sort
import TreePattern.Automaton.Subset
import TreePattern.Proofs.Automaton.Closure

/-!
# What subset construction builds

A successful construction numbers distinct closed sets, and the row of a set has one transition for
each of its tests, in order, to the number of the set reached on that test. Expanding one set keeps
these facts; since only finitely many closed sets exist, the construction ends with a row for every
set that it numbered.
-/

set_option autoImplicit false

namespace TreePattern

universe u

section Distinct

variable {α : Type u} [BEq α]

theorem mem_keep_distinct (kept : List α) (element other : α) :
    other ∈ keepDistinct kept element → other ∈ kept ∨ other = element := by
  intro member
  unfold keepDistinct at member
  split at member
  · exact Or.inl member
  · simpa only [List.mem_append, List.mem_singleton] using member

theorem mem_keep_distinct_of_mem {kept : List α} {other : α} (member : other ∈ kept)
    (element : α) : other ∈ keepDistinct kept element := by
  unfold keepDistinct
  split
  · exact member
  · exact List.mem_append_left _ member

theorem keep_distinct_represents (kept : List α) (element : α) :
    ∃ other ∈ keepDistinct kept element, other = element ∨ (other == element) = true := by
  unfold keepDistinct
  split
  · rename_i repeated
    obtain ⟨other, member, same⟩ := List.any_eq_true.1 repeated
    exact ⟨other, member, Or.inr same⟩
  · exact ⟨element, List.mem_append_right _ (List.mem_singleton_self _), Or.inl rfl⟩

theorem mem_fold_distinct_of_mem {kept : List α} {other : α} (member : other ∈ kept)
    (elements : List α) : other ∈ elements.foldl keepDistinct kept := by
  induction elements generalizing kept with
  | nil => exact member
  | cons element rest induction => exact induction (mem_keep_distinct_of_mem member element)

theorem mem_of_mem_fold_distinct {elements kept : List α} {other : α}
    (member : other ∈ elements.foldl keepDistinct kept) : other ∈ kept ∨ other ∈ elements := by
  induction elements generalizing kept with
  | nil => exact Or.inl member
  | cons element rest induction =>
      rcases induction member with before | later
      · rcases mem_keep_distinct kept element other before with old | rfl
        · exact Or.inl old
        · exact Or.inr (List.mem_cons_self ..)
      · exact Or.inr (List.mem_cons_of_mem _ later)

theorem mem_of_mem_distinct {elements : List α} {other : α} (member : other ∈ distinct elements) :
    other ∈ elements :=
  (mem_of_mem_fold_distinct member).resolve_left List.not_mem_nil

theorem distinct_represents {elements : List α} {element : α} (member : element ∈ elements) :
    ∃ other ∈ distinct elements, other = element ∨ (other == element) = true := by
  obtain ⟨before, after, rfl⟩ := List.append_of_mem member
  obtain ⟨other, kept, same⟩ :=
    keep_distinct_represents (before.foldl keepDistinct []) element
  refine ⟨other, ?_, same⟩
  simp only [distinct, List.foldl_append, List.foldl_cons]
  exact mem_fold_distinct_of_mem kept after

def Apart (elements : List α) : Prop :=
  elements.Pairwise fun first second => (first == second) = false

theorem apart_keep_distinct {kept : List α} (apart : Apart kept) (element : α) :
    Apart (keepDistinct kept element) := by
  unfold keepDistinct
  split
  · exact apart
  · rename_i new
    apply List.pairwise_append.2
    refine ⟨apart, List.pairwise_singleton _ element, ?_⟩
    intro old member other isElement
    rw [List.mem_singleton.1 isElement]
    apply Bool.eq_false_iff.2
    intro same
    exact new (List.any_eq_true.2 ⟨old, member, same⟩)

theorem apart_fold_distinct {kept : List α} (apart : Apart kept) (elements : List α) :
    Apart (elements.foldl keepDistinct kept) := by
  induction elements generalizing kept with
  | nil => exact apart
  | cons element rest induction => exact induction (apart_keep_distinct apart element)

theorem apart_distinct (elements : List α) : Apart (distinct elements) :=
  apart_fold_distinct .nil elements

theorem fold_distinct_of_apart {kept elements : List α} (apart : Apart (kept ++ elements)) :
    elements.foldl keepDistinct kept = kept ++ elements := by
  induction elements generalizing kept with
  | nil => exact (List.append_nil kept).symm
  | cons element rest induction =>
      have new : kept.any (· == element) = false := by
        apply Bool.eq_false_iff.2
        intro repeated
        obtain ⟨old, member, same⟩ := List.any_eq_true.1 repeated
        have different := (List.pairwise_append.1 apart).2.2 old member element List.mem_cons_self
        rw [same] at different
        cases different
      have kept_eq : keepDistinct kept element = kept ++ [element] := by
        rw [keepDistinct, new]
        rfl
      have whole : kept ++ element :: rest = kept ++ [element] ++ rest := by
        rw [List.append_assoc]
        rfl
      rw [whole] at apart ⊢
      rw [List.foldl_cons, kept_eq]
      exact induction apart

theorem distinct_of_apart {elements : List α} (apart : Apart elements) :
    distinct elements = elements :=
  fold_distinct_of_apart (show Apart ([] ++ elements) from apart)

end Distinct

namespace Automaton

variable {κ : Type u}

/-- The start and the destinations of transitions: the only states that closed sets hold. -/
def Mentions (automaton : Automaton κ) (state : Nat) : Prop :=
  state = automaton.start ∨ ∃ entry ∈ automaton.table.toList, entry.2.destination = state

theorem mentions_destination {automaton : Automaton κ} {state : Nat} {transition : Transition κ}
    (leaving : transition ∈ automaton.transitions state) :
    automaton.Mentions transition.destination :=
  Or.inr ⟨(state, transition), (TransitionTable.mem_to_list ..).2 leaving, rfl⟩

theorem EpsilonReach.mentions {automaton : Automaton κ} {source target : Nat}
    (reach : automaton.EpsilonReach source target) (known : automaton.Mentions source) :
    automaton.Mentions target := by
  induction reach with
  | refl => exact known
  | step leaving _ _ induction => exact induction (mentions_destination leaving)

def IsClosed (automaton : Automaton κ) (members : List Nat) : Prop :=
  ∃ states : StateSet, (∀ state, state ∈ states → automaton.Mentions state) ∧
    members = (automaton.closure states).toList

theorem is_closed_start (automaton : Automaton κ) :
    automaton.IsClosed (automaton.closure (.ofList [automaton.start])).toList := by
  refine ⟨_, ?_, rfl⟩
  intro state member
  rw [StateSet.mem_of_list, List.mem_singleton] at member
  exact Or.inl member

theorem start_mem_first (automaton : Automaton κ) :
    automaton.start ∈ (automaton.closure (.ofList [automaton.start])).toList := by
  rw [StateSet.mem_to_list]
  exact mem_closure_of_mem ((StateSet.mem_of_list ..).2 (List.mem_singleton_self _))

theorem epsilon_reach_of_mem_first {automaton : Automaton κ} {state : Nat}
    (member : state ∈ (automaton.closure (.ofList [automaton.start])).toList) :
    automaton.EpsilonReach automaton.start state := by
  rw [StateSet.mem_to_list, mem_closure] at member
  obtain ⟨source, isStart, reach⟩ := member
  rw [StateSet.mem_of_list, List.mem_singleton] at isStart
  exact isStart ▸ reach

theorem IsClosed.increasing {automaton : Automaton κ} {members : List Nat}
    (closed : automaton.IsClosed members) : members.Pairwise (· < ·) := by
  obtain ⟨states, -, rfl⟩ := closed
  exact StateSet.to_list_increasing _

theorem IsClosed.mentions {automaton : Automaton κ} {members : List Nat}
    (closed : automaton.IsClosed members) {state : Nat} (member : state ∈ members) :
    automaton.Mentions state := by
  obtain ⟨states, known, rfl⟩ := closed
  rw [StateSet.mem_to_list, mem_closure] at member
  obtain ⟨source, inStates, reach⟩ := member
  exact reach.mentions (known source inStates)

theorem IsClosed.mem_of_reach {automaton : Automaton κ} {members : List Nat}
    (closed : automaton.IsClosed members) {source target : Nat} (member : source ∈ members)
    (reach : automaton.EpsilonReach source target) : target ∈ members := by
  obtain ⟨states, -, rfl⟩ := closed
  rw [StateSet.mem_to_list] at member ⊢
  exact mem_closure_of_reach member reach

theorem IsClosed.eq_of_mem_iff {automaton : Automaton κ} {left right : List Nat}
    (leftClosed : automaton.IsClosed left) (rightClosed : automaton.IsClosed right)
    (same : ∀ state, state ∈ left ↔ state ∈ right) : left = right :=
  leftClosed.increasing.eq_of_mem_iff rightClosed.increasing same

/-- There are no more closed sets than subsets of the mentioned states. -/
theorem length_closed_le (automaton : Automaton κ) {found : List (List Nat)}
    (distinct : found.Nodup) (closed : ∀ members ∈ found, automaton.IsClosed members) :
    found.length ≤ 2 ^ (automaton.table.toList.length + 1) := by
  let mentioned : Finset Nat :=
    (automaton.start :: automaton.table.toList.map (·.2.destination)).toFinset
  have size : mentioned.card ≤ automaton.table.toList.length + 1 := by
    have bound := List.toFinset_card_le
      (automaton.start :: automaton.table.toList.map (·.2.destination))
    simpa only [List.length_cons, List.length_map] using bound
  have subsets : (found.map List.toFinset).toFinset ⊆ mentioned.powerset := by
    intro subset listed
    rw [List.mem_toFinset] at listed
    obtain ⟨members, inFound, rfl⟩ := List.mem_map.1 listed
    rw [Finset.mem_powerset]
    intro state member
    rw [List.mem_toFinset] at member
    rcases (closed members inFound).mentions member with rfl | ⟨entry, inTable, rfl⟩
    · simp [mentioned]
    · simp only [mentioned, List.mem_toFinset, List.mem_cons, List.mem_map]
      exact Or.inr ⟨entry, inTable, rfl⟩
  have apart : (found.map List.toFinset).Nodup := by
    apply List.Nodup.map_on _ distinct
    intro left inLeft right inRight same
    apply (closed left inLeft).eq_of_mem_iff (closed right inRight)
    intro state
    rw [← List.mem_toFinset, same, List.mem_toFinset]
  calc
    found.length = (found.map List.toFinset).toFinset.card := by
      rw [List.toFinset_card_of_nodup apart, List.length_map]
    _ ≤ mentioned.powerset.card := Finset.card_le_card subsets
    _ = 2 ^ mentioned.card := Finset.card_powerset mentioned
    _ ≤ 2 ^ (automaton.table.toList.length + 1) := Nat.pow_le_pow_right (by decide) size

section Tests

variable [BEq κ]

theorem mem_tests_of_set {automaton : Automaton κ} {members : List Nat} {test : κ}
    (member : test ∈ automaton.testsOfSet members) :
    ∃ state ∈ members, ∃ transition ∈ automaton.transitions state,
      transition.condition = .consume test := by
  obtain ⟨state, inSet, own⟩ := List.mem_flatMap.1 (mem_of_mem_distinct member)
  obtain ⟨transition, leaving, isTest⟩ := List.mem_filterMap.1 (mem_of_mem_distinct own)
  exact ⟨state, inSet, transition, leaving, (Condition.test_eq_some_iff ..).1 isTest⟩

/-- Each test on a transition that leaves a member is among the tests of the set, or a test that
equals it by at most two comparisons is: first within its state, then within the set. -/
theorem tests_of_set_represents {automaton : Automaton κ} {members : List Nat} {state : Nat}
    (inSet : state ∈ members) {transition : Transition κ}
    (leaving : transition ∈ automaton.transitions state) {test : κ}
    (isTest : transition.condition = .consume test) :
    ∃ kept ∈ automaton.testsOfSet members, ∃ own,
      (own = test ∨ (own == test) = true) ∧ (kept = own ∨ (kept == own) = true) := by
  have listed : test ∈ (automaton.transitions state).filterMap (·.condition.test?) :=
    List.mem_filterMap.2 ⟨transition, leaving, (Condition.test_eq_some_iff ..).2 isTest⟩
  obtain ⟨own, inState, first⟩ := distinct_represents listed
  have collected : own ∈ members.flatMap automaton.testsOf :=
    List.mem_flatMap.2 ⟨state, inSet, inState⟩
  obtain ⟨kept, inTests, second⟩ := distinct_represents collected
  exact ⟨kept, inTests, own, first, second⟩

theorem mem_test_targets (automaton : Automaton κ) (members : List Nat) (test : κ)
    (target : Nat) :
    target ∈ automaton.testTargets members test ↔
      ∃ state ∈ members, ∃ transition ∈ automaton.transitions state, ∃ other,
        transition.condition = .consume other ∧ (other == test) = true ∧
          transition.destination = target := by
  simp only [testTargets, List.mem_flatMap, List.mem_map, List.mem_filter]
  constructor
  · intro member
    obtain ⟨state, inSet, transition, ⟨leaving, equal⟩, same⟩ := member
    cases condition : transition.condition with
    | epsilon => simp [condition, Condition.test?] at equal
    | consume other =>
        exact ⟨state, inSet, transition, leaving, other, condition,
          by simpa [condition, Condition.test?] using equal, same⟩
  · intro member
    obtain ⟨state, inSet, transition, leaving, other, condition, equal, same⟩ := member
    exact ⟨state, inSet, transition, ⟨leaving, by simpa [condition, Condition.test?] using equal⟩,
      same⟩

theorem test_step_eq {automaton : Automaton κ} {members next : List Nat} {test : κ}
    (stepped : automaton.testStep members test = .ok next) :
    next = (automaton.closure (.ofList (automaton.testTargets members test))).toList := by
  unfold testStep at stepped
  split at stepped
  · cases stepped
  · exact (Except.ok.inj stepped).symm

theorem is_closed_test_step {automaton : Automaton κ} {members next : List Nat} {test : κ}
    (stepped : automaton.testStep members test = .ok next) : automaton.IsClosed next := by
  refine ⟨_, ?_, test_step_eq stepped⟩
  intro state member
  rw [StateSet.mem_of_list, mem_test_targets] at member
  obtain ⟨source, -, transition, leaving, -, -, -, rfl⟩ := member
  exact mentions_destination leaving

end Tests

end Automaton

end TreePattern
