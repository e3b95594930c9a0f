import TreePattern.Automaton.Closure

/-!
# Running an automaton

All states that can be reached are followed at once. An input is accepted if an accepting state is
among those reached after the last value.
-/

set_option autoImplicit false

namespace TreePattern

universe u v

namespace Automaton

variable {κ : Type u} {υ : Type v}

def valueTargets [Matches κ υ] (automaton : Automaton κ) (value : υ) (state : Nat) : List Nat :=
  ((automaton.transitions state).filter (·.condition.accepts value)).map (·.destination)

def consume [Matches κ υ] (automaton : Automaton κ) (states : StateSet) (value : υ) : StateSet :=
  .ofList (states.toList.flatMap (automaton.valueTargets value))

/-- Whether an accepting state is reached from the closed set `states`. Nothing is reached any more
once the set is empty. -/
def acceptsFrom [Matches κ υ] (automaton : Automaton κ) : StateSet → List υ → Bool
  | states, [] => states.toList.any automaton.isAccepting
  | states, value :: rest =>
      let next := automaton.consume states value
      if next.isEmpty then false else automaton.acceptsFrom (automaton.closure next) rest

def accepts [Matches κ υ] (automaton : Automaton κ) (input : List υ) : Bool :=
  automaton.acceptsFrom (automaton.closure (.ofList [automaton.start])) input

end Automaton

end TreePattern
