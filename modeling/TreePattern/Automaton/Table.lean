import TreePattern.Automaton.GrowingArray
import TreePattern.Condition.Basic

/-!
# Transition tables

A table has a row for each state up to the largest one mentioned, and a row lists the transitions
that leave the state in the order in which they were added. A state past the last row has no
transitions.
-/

set_option autoImplicit false

namespace TreePattern

universe u v

structure Transition (κ : Type u) where
  condition : Condition κ
  destination : Nat
  deriving BEq, Repr

structure TransitionTable (κ : Type u) where
  rows : Array (List (Transition κ)) := #[]
  deriving Repr

namespace TransitionTable

variable {κ : Type u} {υ : Type v}

def empty : TransitionTable κ := {}

instance : Inhabited (TransitionTable κ) := ⟨empty⟩

def stateCount (table : TransitionTable κ) : Nat := table.rows.size

def transitions (table : TransitionTable κ) (state : Nat) : List (Transition κ) :=
  table.rows[state]?.getD []

def ensureState (table : TransitionTable κ) (state : Nat) : TransitionTable κ where
  rows := growTo table.rows (state + 1) []

/-- Appends a transition to the row of `source`; both ends have a row afterwards. -/
def add (table : TransitionTable κ) (source : Nat) (condition : Condition κ)
    (destination : Nat) : TransitionTable κ where
  rows := (growTo table.rows (max source destination + 1) []).modify source
    (· ++ [⟨condition, destination⟩])

def toList (table : TransitionTable κ) : List (Nat × Transition κ) :=
  (List.range table.stateCount).flatMap fun state =>
    (table.transitions state).map fun transition => (state, transition)

def destination? [Matches κ υ] (table : TransitionTable κ) (state : Nat) (value : υ) :
    Option Nat :=
  ((table.transitions state).find? (·.condition.accepts value)).map (·.destination)

@[simp] theorem transitions_empty (state : Nat) :
    (empty : TransitionTable κ).transitions state = [] := rfl

@[simp] theorem transitions_ensure_state (table : TransitionTable κ) (state other : Nat) :
    (table.ensureState state).transitions other = table.transitions other := by
  simp [transitions, ensureState]

theorem transitions_add (table : TransitionTable κ) (source : Nat) (condition : Condition κ)
    (destination state : Nat) :
    (table.add source condition destination).transitions state =
      if state = source then table.transitions state ++ [⟨condition, destination⟩]
      else table.transitions state := by
  simp only [transitions, add, Array.getElem?_modify]
  by_cases same : source = state
  · subst same
    have bound : source < (growTo table.rows (max source destination + 1) []).size := by
      rw [size_grow_to]
      omega
    have kept := get_grow_to table.rows (max source destination + 1) [] source
    rw [Array.getElem?_eq_getElem bound] at kept ⊢
    simpa using kept
  · rw [if_neg same, if_neg (Ne.symm same), get_grow_to]

@[simp] theorem state_count_ensure_state (table : TransitionTable κ) (state : Nat) :
    (table.ensureState state).stateCount = max table.stateCount (state + 1) := by
  simp [stateCount, ensureState]

@[simp] theorem state_count_add (table : TransitionTable κ) (source : Nat)
    (condition : Condition κ) (destination : Nat) :
    (table.add source condition destination).stateCount =
      max table.stateCount (max source destination + 1) := by
  simp [stateCount, add]

theorem mem_to_list (table : TransitionTable κ) (source : Nat) (transition : Transition κ) :
    (source, transition) ∈ table.toList ↔ transition ∈ table.transitions source := by
  simp only [toList, List.mem_flatMap, List.mem_range, List.mem_map, Prod.mk.injEq]
  constructor
  · intro listed
    rcases listed with ⟨state, -, found, member, rfl, rfl⟩
    exact member
  · intro member
    refine ⟨source, ?_, transition, member, rfl, rfl⟩
    by_cases bound : source < table.stateCount
    · exact bound
    · have outside : table.rows[source]? = none :=
        Array.getElem?_eq_none (Nat.le_of_not_lt bound)
      simp [transitions, outside] at member

structure Within (table larger : TransitionTable κ) : Prop where
  mem {state : Nat} {transition : Transition κ} (member : transition ∈ table.transitions state) :
    transition ∈ larger.transitions state

theorem Within.refl (table : TransitionTable κ) : table.Within table := ⟨id⟩

theorem Within.trans {first second third : TransitionTable κ} (inner : first.Within second)
    (outer : second.Within third) : first.Within third :=
  ⟨fun member => outer.mem (inner.mem member)⟩

theorem within_ensure_state (table : TransitionTable κ) (state : Nat) :
    table.Within (table.ensureState state) where
  mem member := by
    rw [transitions_ensure_state]
    exact member

theorem within_add (table : TransitionTable κ) (source : Nat) (condition : Condition κ)
    (destination : Nat) : table.Within (table.add source condition destination) where
  mem member := by
    rw [transitions_add]
    split
    · exact List.mem_append_left _ member
    · exact member

theorem mem_transitions_add (table : TransitionTable κ) (source : Nat) (condition : Condition κ)
    (destination : Nat) :
    ⟨condition, destination⟩ ∈
      (table.add source condition destination).transitions source := by
  rw [transitions_add, if_pos rfl]
  exact List.mem_append_right _ (List.mem_singleton_self _)

end TransitionTable

end TreePattern
