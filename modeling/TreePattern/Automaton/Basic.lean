import TreePattern.Automaton.StateSet
import TreePattern.Automaton.Table

/-!
# Automata

An automaton has one start state, a set of accepting states and a transition table. Neither the
start nor an accepting state needs a row in the table.
-/

set_option autoImplicit false

namespace TreePattern

universe u v

structure Automaton (κ : Type u) where
  start : Nat
  accepting : StateSet
  table : TransitionTable κ

namespace Automaton

variable {κ : Type u} {υ : Type v}

def isAccepting (automaton : Automaton κ) (state : Nat) : Bool :=
  automaton.accepting.contains state

def stateCount (automaton : Automaton κ) : Nat := automaton.table.stateCount

def transitions (automaton : Automaton κ) (state : Nat) : List (Transition κ) :=
  automaton.table.transitions state

def destination? [Matches κ υ] (automaton : Automaton κ) (state : Nat) (value : υ) :
    Option Nat :=
  automaton.table.destination? state value

def hasEpsilon (automaton : Automaton κ) : Bool :=
  automaton.table.toList.any (·.2.condition.isEpsilon)

def text [PlainText κ] (automaton : Automaton κ) : String :=
  let moves := automaton.table.toList.map fun (source, transition) =>
    toString source ++ " -[" ++ plain transition.condition ++ "]-> " ++
      toString transition.destination
  let accepts := automaton.accepting.toList.map fun state => "accept " ++ toString state
  String.intercalate "\n" (moves ++ accepts ++ ["start " ++ toString automaton.start])

/-- Follows first matching transitions along the values, as far as all of them have one. -/
def runFirst? [Matches κ υ] (automaton : Automaton κ) : Nat → List υ → Option Nat
  | state, [] => some state
  | state, value :: rest =>
      (automaton.destination? state value).bind fun next => automaton.runFirst? next rest

end Automaton

end TreePattern
