import TreePattern.Matching.Step

/-!
# Failures

What can go wrong in the library's own operations, each with its wording. Reading settings has
errors of its own kind.
-/

set_option autoImplicit false

namespace TreePattern

universe u

inductive Failure where
  /-- An automaton was asked for before any start state was designated. -/
  | missingStart
  /-- No rule accepted the tree. -/
  | noRuleMatched
  /-- Under the strict policy, two steps at `position` lead to `state`. -/
  | ambiguousDerivation (position state : Nat)
  /-- A node, position or automaton was named by an index past the end. -/
  | outOfRange
  /-- Subset construction met a condition that does not equal itself. -/
  | noDestination
  /-- The traversal visited fewer nodes than the position asks for. -/
  | noNodeAt (position : Nat)
  /-- No recorded step at `position` hands off to `step`. -/
  | noPredecessor (step : Step) (position : Nat)
  deriving DecidableEq, Repr

def Failure.message : Failure → String
  | .missingStart => "automaton has no start state"
  | .noRuleMatched => "no syntax matched the tree"
  | .ambiguousDerivation position state =>
      s!"ambiguous derivation: more than one step reaches state {state} at position {position}"
  | .outOfRange => "index out of bounds"
  | .noDestination => "no destination states for a condition"
  | .noNodeAt position => s!"no node at position {position} of the traversal"
  | .noPredecessor step position =>
      s!"no tuple precedes {step.text} at position {position}"

theorem bind_eq_ok_iff {ε : Type} {α β : Type u} {first : Except ε α} {next : α → Except ε β}
    {result : β} :
    (first >>= next) = .ok result ↔ ∃ value, first = .ok value ∧ next value = .ok result := by
  cases first with
  | error failure => simp [bind, Except.bind]
  | ok value => simp [bind, Except.bind]

end TreePattern
