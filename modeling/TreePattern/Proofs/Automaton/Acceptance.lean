import TreePattern.Automaton.Run
import TreePattern.Proofs.Automaton.Closure

/-!
# Acceptance is the existence of an accepting path

The simulation keeps the closed set of all states that some path reaches. A path that consumes a
value splits into a silent part, the transition that consumes the value and the rest, which is how
one step of the simulation moves the set.
-/

set_option autoImplicit false

namespace TreePattern

universe u v

namespace Automaton

variable {κ : Type u} {υ : Type v} [Matches κ υ]

theorem path_nil_iff (automaton : Automaton κ) (source target : Nat) :
    automaton.Path source ([] : List υ) target ↔ automaton.EpsilonReach source target := by
  constructor
  · intro path
    generalize none : ([] : List υ) = word at path
    induction path with
    | refl state => exact .refl state
    | epsilon leaving silent _ induction => exact .step leaving silent (induction none)
    | value => cases none
  · exact EpsilonReach.path

theorem path_cons_iff (automaton : Automaton κ) (source target : Nat) (value : υ)
    (word : List υ) :
    automaton.Path source (value :: word) target ↔
      ∃ state, automaton.EpsilonReach source state ∧
        ∃ next ∈ automaton.valueTargets value state, automaton.Path next word target := by
  constructor
  · intro path
    generalize whole : value :: word = consumed at path
    induction path with
    | refl => cases whole
    | epsilon leaving silent _ induction =>
        obtain ⟨state, reach, later⟩ := induction whole
        exact ⟨state, .step leaving silent reach, later⟩
    | value leaving matching rest =>
        cases whole
        refine ⟨_, .refl _, _, ?_, rest⟩
        exact List.mem_map_of_mem (List.mem_filter.2 ⟨leaving, matching⟩)
  · intro reached
    rcases reached with ⟨state, reach, next, member, rest⟩
    obtain ⟨transition, kept, rfl⟩ := List.mem_map.1 member
    obtain ⟨leaving, matching⟩ := List.mem_filter.1 kept
    have onward : automaton.Path state (value :: word) target := .value leaving matching rest
    exact reach.path.append onward

theorem mem_consume (automaton : Automaton κ) (states : StateSet) (value : υ) (next : Nat) :
    next ∈ automaton.consume states value ↔
      ∃ state, state ∈ states ∧ next ∈ automaton.valueTargets value state := by
  simp [consume]

/-- From a closed set, the simulation accepts exactly if a path from a member is accepting. -/
theorem accepts_from_iff (automaton : Automaton κ) (word : List υ) (states : StateSet)
    (closed : ∀ source target, source ∈ states → automaton.EpsilonReach source target →
      target ∈ states) :
    automaton.acceptsFrom states word = true ↔
      ∃ source, source ∈ states ∧
        ∃ target, automaton.Path source word target ∧ automaton.isAccepting target = true := by
  induction word generalizing states with
  | nil =>
      simp only [acceptsFrom, List.any_eq_true, StateSet.mem_to_list, path_nil_iff]
      constructor
      · intro reached
        rcases reached with ⟨state, member, accepting⟩
        exact ⟨state, member, state, .refl state, accepting⟩
      · intro reached
        rcases reached with ⟨source, member, target, reach, accepting⟩
        exact ⟨target, closed source target member reach, accepting⟩
  | cons value word induction =>
      have next := induction (automaton.closure (automaton.consume states value))
        fun _ _ => mem_closure_of_reach
      simp only [acceptsFrom, path_cons_iff]
      split
      · rename_i blank
        have nothing := (StateSet.is_empty_iff _).1 blank
        constructor
        · intro impossible
          cases impossible
        · intro reached
          rcases reached with ⟨source, member, target, ⟨state, reach, onward, moves, -⟩, -⟩
          have kept := closed source state member reach
          exact absurd ((mem_consume ..).2 ⟨state, kept, moves⟩) (nothing onward)
      · rw [next]
        constructor
        · intro reached
          rcases reached with ⟨later, inClosure, target, path, accepting⟩
          obtain ⟨first, consumed, reach⟩ := (mem_closure ..).1 inClosure
          obtain ⟨state, member, moves⟩ := (mem_consume ..).1 consumed
          have rest : automaton.Path first word target := by
            simpa using reach.path.append path
          exact ⟨state, member, target, ⟨state, .refl state, first, moves, rest⟩, accepting⟩
        · intro reached
          rcases reached with
            ⟨source, member, target, ⟨state, reach, first, moves, path⟩, accepting⟩
          have kept := closed source state member reach
          have consumed := (mem_consume automaton states value first).2 ⟨state, kept, moves⟩
          exact ⟨first, (mem_closure ..).2 ⟨first, consumed, .refl first⟩, target, path, accepting⟩

theorem accepts_iff_accepting_path (automaton : Automaton κ) (word : List υ) :
    automaton.accepts word = true ↔ automaton.HasAcceptingPath word := by
  rw [accepts, accepts_from_iff _ _ _ fun _ _ => mem_closure_of_reach]
  simp only [mem_closure, StateSet.mem_of_list, List.mem_singleton]
  constructor
  · intro reached
    rcases reached with ⟨source, ⟨seed, rfl, reach⟩, target, path, accepting⟩
    exact ⟨target, by simpa using reach.path.append path, accepting⟩
  · intro reached
    rcases reached with ⟨target, path, accepting⟩
    exact ⟨automaton.start, ⟨automaton.start, rfl, .refl _⟩, target, path, accepting⟩

theorem path_of_run_first {automaton : Automaton κ} {source target : Nat} {word : List υ}
    (run : automaton.runFirst? source word = some target) :
    automaton.Path source word target := by
  induction word generalizing source with
  | nil =>
      cases run
      exact .refl _
  | cons value word induction =>
      obtain ⟨next, moved, rest⟩ := Option.bind_eq_some_iff.1 run
      obtain ⟨transition, found, rfl⟩ := Option.map_eq_some_iff.1 moved
      have leaving : transition ∈ automaton.transitions source := List.mem_of_find?_eq_some found
      have matching : transition.condition.accepts value = true := by
        simpa using List.find?_some found
      exact .value leaving matching (induction rest)

end Automaton

end TreePattern
