/-!
# Attempts and steps

Running an automaton along a tree is recorded in two kinds of entry. An attempt says how a match
came to the edge of a node: the position of the node it consumed last, if any, and the state it is
in. A step says how an attempt moved through a node. Positions number the nodes in the order of the
visit, states are ordinals, and both kinds name the automaton by its index in the engine.
-/

set_option autoImplicit false

namespace TreePattern

structure Attempt where
  last : Option Nat
  state : Nat
  automaton : Nat
  deriving DecidableEq, Repr

structure Step where
  last : Option Nat
  source : Nat
  position : Nat
  target : Nat
  automaton : Nat
  deriving DecidableEq, Repr

/-- The order key of an optional position: none comes before every position. -/
def positionKey : Option Nat → Nat
  | none => 0
  | some position => position + 1

def Attempt.key (attempt : Attempt) : List Nat :=
  [positionKey attempt.last, attempt.state, attempt.automaton]

def Step.key (step : Step) : List Nat :=
  [positionKey step.last, step.source, step.position, step.target, step.automaton]

def Step.handoff (step : Step) : Attempt where
  last := some step.position
  state := step.target
  automaton := step.automaton

def Attempt.advance (attempt : Attempt) (position target : Nat) : Step where
  last := attempt.last
  source := attempt.state
  position := position
  target := target
  automaton := attempt.automaton

def Step.text (step : Step) : String :=
  let last := match step.last with
    | none => "-1"
    | some position => toString position
  s!"({last}, {step.source}, {step.position}, {step.target})@{step.automaton}"

theorem position_key_injective {left right : Option Nat}
    (same : positionKey left = positionKey right) : left = right := by
  cases left <;> cases right <;> simp_all [positionKey]

theorem Attempt.key_injective {left right : Attempt} (same : left.key = right.key) :
    left = right := by
  cases left
  cases right
  simp only [key, List.cons.injEq, and_true] at same
  obtain ⟨last, state, automaton⟩ := same
  simp [position_key_injective last, state, automaton]

theorem Step.key_injective {left right : Step} (same : left.key = right.key) :
    left = right := by
  cases left
  cases right
  simp only [key, List.cons.injEq, and_true] at same
  obtain ⟨last, source, position, target, automaton⟩ := same
  simp [position_key_injective last, source, position, target, automaton]

end TreePattern
