import TreePattern.Automaton.Basic

/-!
# Epsilon closure

The closure of a set of states adds every state that can be reached from it without consuming a
value. It is explored from a list of states that wait to be expanded.
-/

set_option autoImplicit false

namespace TreePattern

universe u

namespace Automaton

variable {κ : Type u}

def epsilonTargets (automaton : Automaton κ) (state : Nat) : List Nat :=
  ((automaton.transitions state).filter (·.condition.isEpsilon)).map (·.destination)

/-- Inserts the states; those that were new come back as a list, each once. -/
def addFresh : List Nat → StateSet → List Nat × StateSet
  | [], reached => ([], reached)
  | state :: rest, reached =>
      if reached.contains state then addFresh rest reached
      else
        let (fresh, after) := addFresh rest (reached.insert state)
        (state :: fresh, after)

def explore (automaton : Automaton κ) : Nat → List Nat → StateSet → StateSet
  | 0, _, reached => reached
  | _ + 1, [], reached => reached
  | count + 1, state :: waiting, reached =>
      let (fresh, after) := addFresh (automaton.epsilonTargets state) reached
      explore automaton count (fresh ++ waiting) after

/-- A state waits either because it is in the set or because a transition led to it first, so no
more states are expanded than the set has members and the table transitions. -/
def closure (automaton : Automaton κ) (states : StateSet) : StateSet :=
  let waiting := states.toList
  automaton.explore (waiting.length + automaton.table.toList.length) waiting states

end Automaton

end TreePattern
