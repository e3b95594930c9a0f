import TreePattern.Automaton.Closure
import TreePattern.Automaton.Path

/-!
# The closure is the set of states within epsilon reach

Exploring keeps four facts about the states that wait and the states reached so far. Once nothing
waits, they say that the set is closed and that nothing in it is out of reach. The count given to
the exploration suffices, because a state waits only if it was given or is a destination that was
not reached before.
-/

set_option autoImplicit false

namespace TreePattern

universe u

namespace Automaton

variable {κ : Type u}

theorem mem_epsilon_targets (automaton : Automaton κ) (state target : Nat) :
    target ∈ automaton.epsilonTargets state ↔
      ∃ transition ∈ automaton.transitions state,
        transition.condition = .epsilon ∧ transition.destination = target := by
  have silent (condition : Condition κ) : condition.isEpsilon = true ↔ condition = .epsilon := by
    cases condition <;> simp [Condition.isEpsilon]
  simp only [epsilonTargets, List.mem_map, List.mem_filter, silent]
  constructor
  · intro reached
    rcases reached with ⟨transition, ⟨leaving, isSilent⟩, same⟩
    exact ⟨transition, leaving, isSilent, same⟩
  · intro reached
    rcases reached with ⟨transition, leaving, isSilent, same⟩
    exact ⟨transition, ⟨leaving, isSilent⟩, same⟩

theorem EpsilonReach.of_target {automaton : Automaton κ} {state target : Nat}
    (leads : target ∈ automaton.epsilonTargets state) : automaton.EpsilonReach state target := by
  obtain ⟨transition, leaving, silent, rfl⟩ := (mem_epsilon_targets ..).1 leads
  exact .step leaving silent (.refl _)

/-- The destinations that a set does not hold yet, counted once for each transition. -/
def unreached (automaton : Automaton κ) (reached : StateSet) : Nat :=
  automaton.table.toList.countP fun entry => !reached.contains entry.2.destination

theorem unreached_le (automaton : Automaton κ) (reached : StateSet) :
    automaton.unreached reached ≤ automaton.table.toList.length :=
  List.countP_le_length

theorem unreached_insert_lt (automaton : Automaton κ) {reached : StateSet} {state : Nat}
    (destination : ∃ entry ∈ automaton.table.toList, entry.2.destination = state)
    (new : ¬ state ∈ reached) :
    automaton.unreached (reached.insert state) < automaton.unreached reached := by
  have fewer (entry : Nat × Transition κ) :
      (!(reached.insert state).contains entry.2.destination) = true →
        (!reached.contains entry.2.destination) = true := by
    have grown := StateSet.mem_insert reached state entry.2.destination
    simp only [StateSet.mem_def] at grown
    simp only [Bool.not_eq_true', ← Bool.not_eq_true]
    exact fun absent present => absent (grown.2 (Or.inr present))
  obtain ⟨entry, listed, rfl⟩ := destination
  obtain ⟨before, after, split⟩ := List.append_of_mem listed
  have old : reached.contains entry.2.destination = false := by
    simpa only [StateSet.mem_def, Bool.not_eq_true] using new
  have now : (reached.insert entry.2.destination).contains entry.2.destination = true :=
    (StateSet.mem_insert ..).2 (Or.inl rfl)
  have left := List.countP_mono_left (l := before) fun entry _ => fewer entry
  have right := List.countP_mono_left (l := after) fun entry _ => fewer entry
  simp only [unreached, split, List.countP_append, List.countP_cons, old, now]
  simp only [Bool.not_true, Bool.not_false, Bool.false_eq_true, if_true, if_false]
  omega

theorem mem_add_fresh (states : List Nat) (reached : StateSet) (other : Nat) :
    other ∈ (addFresh states reached).2 ↔ other ∈ states ∨ other ∈ reached := by
  induction states generalizing reached with
  | nil => simp [addFresh]
  | cons state rest induction =>
      unfold addFresh
      split
      · rename_i present
        rw [induction, List.mem_cons]
        constructor
        · intro reached
          rcases reached with inRest | old
          · exact Or.inl (Or.inr inRest)
          · exact Or.inr old
        · intro reached
          rcases reached with (rfl | inRest) | old
          · exact Or.inr present
          · exact Or.inl inRest
          · exact Or.inr old
      · rw [induction, StateSet.mem_insert, List.mem_cons]
        constructor
        · intro reached
          rcases reached with inRest | same | old
          · exact Or.inl (Or.inr inRest)
          · exact Or.inl (Or.inl same)
          · exact Or.inr old
        · intro reached
          rcases reached with (same | inRest) | old
          · exact Or.inr (Or.inl same)
          · exact Or.inl inRest
          · exact Or.inr (Or.inr old)

theorem mem_add_fresh_iff_fresh (states : List Nat) (reached : StateSet) (other : Nat) :
    other ∈ (addFresh states reached).2 ↔
      other ∈ (addFresh states reached).1 ∨ other ∈ reached := by
  induction states generalizing reached with
  | nil => simp [addFresh]
  | cons state rest induction =>
      unfold addFresh
      split
      · exact induction reached
      · rw [induction, StateSet.mem_insert, List.mem_cons]
        exact or_left_comm.trans or_assoc.symm

theorem length_add_fresh_add_unreached_le (automaton : Automaton κ) (states : List Nat)
    (reached : StateSet)
    (destinations : ∀ state ∈ states,
      ∃ entry ∈ automaton.table.toList, entry.2.destination = state) :
    (addFresh states reached).1.length + automaton.unreached (addFresh states reached).2 ≤
      automaton.unreached reached := by
  induction states generalizing reached with
  | nil => simp [addFresh]
  | cons state rest induction =>
      have restDestinations := fun other member =>
        destinations other (List.mem_cons_of_mem state member)
      unfold addFresh
      split
      · exact induction reached restDestinations
      · rename_i absent
        have fewer :=
          automaton.unreached_insert_lt (destinations state (List.mem_cons_self ..)) absent
        have later := induction (reached.insert state) restDestinations
        simp only [List.length_cons]
        omega

/-- One turn: a state starts to wait only when it is reached for the first time. -/
theorem length_fresh_add_unreached_le (automaton : Automaton κ) (state : Nat)
    (reached : StateSet) :
    (addFresh (automaton.epsilonTargets state) reached).1.length +
        automaton.unreached (addFresh (automaton.epsilonTargets state) reached).2 ≤
      automaton.unreached reached := by
  apply automaton.length_add_fresh_add_unreached_le
  intro target leads
  obtain ⟨transition, leaving, -, same⟩ := (mem_epsilon_targets ..).1 leads
  exact ⟨(state, transition), (TransitionTable.mem_to_list ..).2 leaving, same⟩

/-- A reached state either waits or has all its silent successors in the set, and everything
reached is within reach of a seed. -/
structure Exploration (automaton : Automaton κ) (seeds : StateSet) (waiting : List Nat)
    (reached : StateSet) : Prop where
  seeded : ∀ state, state ∈ seeds → state ∈ reached
  waitingReached : ∀ state ∈ waiting, state ∈ reached
  sound : ∀ state, state ∈ reached → ∃ seed, seed ∈ seeds ∧ automaton.EpsilonReach seed state
  frontier : ∀ state, state ∈ reached →
    state ∈ waiting ∨ ∀ target ∈ automaton.epsilonTargets state, target ∈ reached

theorem Exploration.initial (automaton : Automaton κ) (seeds : StateSet) :
    automaton.Exploration seeds seeds.toList seeds where
  seeded _ member := member
  waitingReached state member := (seeds.mem_to_list state).1 member
  sound state member := ⟨state, member, .refl state⟩
  frontier state member := Or.inl ((seeds.mem_to_list state).2 member)

theorem Exploration.expand {automaton : Automaton κ} {seeds : StateSet} {state : Nat}
    {waiting : List Nat} {reached : StateSet}
    (valid : automaton.Exploration seeds (state :: waiting) reached) :
    automaton.Exploration seeds
      ((addFresh (automaton.epsilonTargets state) reached).1 ++ waiting)
      (addFresh (automaton.epsilonTargets state) reached).2 where
  seeded other member := (mem_add_fresh ..).2 (Or.inr (valid.seeded other member))
  waitingReached other member := by
    rcases List.mem_append.1 member with fresh | later
    · exact (mem_add_fresh_iff_fresh ..).2 (Or.inl fresh)
    · have old := valid.waitingReached other (List.mem_cons_of_mem state later)
      exact (mem_add_fresh ..).2 (Or.inr old)
  sound other member := by
    rcases (mem_add_fresh ..).1 member with target | old
    · obtain ⟨seed, seeded, reach⟩ :=
        valid.sound state (valid.waitingReached state (List.mem_cons_self ..))
      exact ⟨seed, seeded, reach.trans (.of_target target)⟩
    · exact valid.sound other old
  frontier other member := by
    rcases (mem_add_fresh_iff_fresh ..).1 member with fresh | old
    · exact Or.inl (List.mem_append_left waiting fresh)
    · rcases valid.frontier other old with waits | expanded
      · rcases List.mem_cons.1 waits with rfl | later
        · exact Or.inr fun target leads => (mem_add_fresh ..).2 (Or.inl leads)
        · exact Or.inl (List.mem_append_right _ later)
      · exact Or.inr fun target leads => (mem_add_fresh ..).2 (Or.inr (expanded target leads))

/-- With a count that covers the waiting states and the destinations not reached yet, exploring
ends because nothing waits any more. -/
theorem Exploration.run {automaton : Automaton κ} {seeds : StateSet} (count : Nat)
    {waiting : List Nat} {reached : StateSet}
    (valid : automaton.Exploration seeds waiting reached)
    (enough : waiting.length + automaton.unreached reached ≤ count) :
    automaton.Exploration seeds [] (automaton.explore count waiting reached) := by
  induction count generalizing waiting reached with
  | zero =>
      have none : waiting = [] := List.eq_nil_of_length_eq_zero (by omega)
      subst none
      exact valid
  | succ count induction =>
      cases waiting with
      | nil => exact valid
      | cons state waiting =>
          have bound := automaton.length_fresh_add_unreached_le state reached
          apply induction valid.expand
          simp only [List.length_append, List.length_cons] at enough ⊢
          omega

theorem EpsilonReach.keeps {automaton : Automaton κ} {Holds : Nat → Prop}
    (kept : ∀ state, Holds state → ∀ target ∈ automaton.epsilonTargets state, Holds target)
    {source target : Nat} (holds : Holds source)
    (reach : automaton.EpsilonReach source target) : Holds target := by
  induction reach with
  | refl => exact holds
  | step leaving silent _ induction =>
      exact induction
        (kept _ holds _ ((mem_epsilon_targets ..).2 ⟨_, leaving, silent, rfl⟩))

/-- Once nothing waits, exactly what is within reach of the seeds has been reached. -/
theorem Exploration.mem_iff {automaton : Automaton κ} {seeds reached : StateSet}
    (final : automaton.Exploration seeds [] reached) (target : Nat) :
    target ∈ reached ↔ ∃ source, source ∈ seeds ∧ automaton.EpsilonReach source target := by
  constructor
  · exact final.sound target
  · intro within
    obtain ⟨source, seeded, reach⟩ := within
    apply reach.keeps _ (final.seeded source seeded)
    intro state member
    rcases final.frontier state member with waits | expanded
    · exact absurd waits List.not_mem_nil
    · exact expanded

theorem mem_closure (automaton : Automaton κ) (states : StateSet) (target : Nat) :
    target ∈ automaton.closure states ↔
      ∃ source, source ∈ states ∧ automaton.EpsilonReach source target := by
  have enough : states.toList.length + automaton.unreached states ≤
      states.toList.length + automaton.table.toList.length :=
    Nat.add_le_add_left (automaton.unreached_le states) _
  have final := Exploration.run _ (.initial automaton states) enough
  change automaton.Exploration states [] (automaton.closure states) at final
  exact final.mem_iff target

theorem mem_closure_of_mem {automaton : Automaton κ} {states : StateSet} {state : Nat}
    (member : state ∈ states) : state ∈ automaton.closure states :=
  (mem_closure ..).2 ⟨state, member, .refl state⟩

theorem mem_closure_of_reach {automaton : Automaton κ} {states : StateSet} {source target : Nat}
    (member : source ∈ automaton.closure states)
    (reach : automaton.EpsilonReach source target) : target ∈ automaton.closure states := by
  obtain ⟨seed, seeded, first⟩ := (mem_closure ..).1 member
  exact (mem_closure ..).2 ⟨seed, seeded, first.trans reach⟩

end Automaton

end TreePattern
