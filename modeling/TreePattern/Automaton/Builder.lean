import TreePattern.Automaton.Basic
import TreePattern.Failure

/-!
# Building automata

A builder hands out states in increasing order and collects transitions, accepting states and the
start. Any state may be mentioned, handed out or not; the start designated last is the one kept.
-/

set_option autoImplicit false

namespace TreePattern

universe u

structure AutomatonBuilder (κ : Type u) where
  nextState : Nat := 0
  start? : Option Nat := none
  accepting : StateSet := .empty
  table : TransitionTable κ := .empty

namespace AutomatonBuilder

variable {κ : Type u}

def empty : AutomatonBuilder κ := {}

def setStart (builder : AutomatonBuilder κ) (state : Nat) : AutomatonBuilder κ :=
  { builder with start? := some state }

def markAccepting (builder : AutomatonBuilder κ) (state : Nat) : AutomatonBuilder κ :=
  { builder with accepting := builder.accepting.insert state }

def addTransition (builder : AutomatonBuilder κ) (source : Nat) (condition : Condition κ)
    (destination : Nat) : AutomatonBuilder κ :=
  { builder with table := builder.table.add source condition destination }

/-- The builder after the next state, `builder.nextState`, has been handed out. -/
def withState (builder : AutomatonBuilder κ) : AutomatonBuilder κ :=
  { builder with
    nextState := builder.nextState + 1
    table := builder.table.ensureState builder.nextState }

def newState (builder : AutomatonBuilder κ) (start accepting : Bool) :
    Nat × AutomatonBuilder κ :=
  let state := builder.nextState
  let handed := builder.withState
  let started := if start then handed.setStart state else handed
  (state, if accepting then started.markAccepting state else started)

def build (builder : AutomatonBuilder κ) : Except Failure (Automaton κ) :=
  match builder.start? with
  | some start => .ok ⟨start, builder.accepting, builder.table⟩
  | none => .error .missingStart

@[simp] theorem next_state_with_state (builder : AutomatonBuilder κ) :
    builder.withState.nextState = builder.nextState + 1 := rfl

@[simp] theorem next_state_add_transition (builder : AutomatonBuilder κ) (source : Nat)
    (condition : Condition κ) (destination : Nat) :
    (builder.addTransition source condition destination).nextState = builder.nextState := rfl

@[simp] theorem next_state_new_state (builder : AutomatonBuilder κ) (start accepting : Bool) :
    (builder.newState start accepting).2.nextState = builder.nextState + 1 := by
  cases start <;> cases accepting <;> rfl

@[simp] theorem table_new_state (builder : AutomatonBuilder κ) (start accepting : Bool) :
    (builder.newState start accepting).2.table = builder.table.ensureState builder.nextState := by
  cases start <;> cases accepting <;> rfl

@[simp] theorem start_new_state (builder : AutomatonBuilder κ) (start accepting : Bool) :
    (builder.newState start accepting).2.start? =
      if start then some builder.nextState else builder.start? := by
  cases start <;> cases accepting <;> rfl

@[simp] theorem accepting_new_state (builder : AutomatonBuilder κ) (start accepting : Bool) :
    (builder.newState start accepting).2.accepting =
      if accepting then builder.accepting.insert builder.nextState else builder.accepting := by
  cases start <;> cases accepting <;> rfl

theorem within_with_state (builder : AutomatonBuilder κ) :
    builder.table.Within builder.withState.table :=
  builder.table.within_ensure_state builder.nextState

theorem within_add_transition (builder : AutomatonBuilder κ) (source : Nat)
    (condition : Condition κ) (destination : Nat) :
    builder.table.Within (builder.addTransition source condition destination).table :=
  builder.table.within_add source condition destination

theorem mem_add_transition (builder : AutomatonBuilder κ) (source : Nat)
    (condition : Condition κ) (destination : Nat) :
    ⟨condition, destination⟩ ∈
      (builder.addTransition source condition destination).table.transitions source :=
  builder.table.mem_transitions_add source condition destination

end AutomatonBuilder

end TreePattern
