import TreePattern.Matching.Derivation
import TreePattern.Pattern.Compile

/-!
# Rule sets

A rule pairs a pattern with an action on the nodes that a match consumes. Applying a rule set to a
tree runs all patterns at once and performs the action of the earliest rule that matches. The rule
with a given index is the automaton with that index in the engine.
-/

set_option autoImplicit false

namespace TreePattern

universe u v w

structure RuleSet (κ : Type u) (π : Type v) (ρ : Type w) where
  eliminateEpsilon : Bool
  engine : Engine κ
  actions : Array (Tree π → List Nat → ρ)

namespace RuleSet

variable {κ : Type u} {π : Type v} {ρ : Type w}

def empty (settings : Settings) : RuleSet κ π ρ where
  eliminateEpsilon := settings.eliminateEpsilon
  engine := { policy := settings.policy }
  actions := #[]

def size (rules : RuleSet κ π ρ) : Nat := rules.actions.size

def isEmpty (rules : RuleSet κ π ρ) : Bool := rules.actions.isEmpty

def add [BEq κ] (rules : RuleSet κ π ρ) (pattern : Pattern κ)
    (action : Tree π → List Nat → ρ) : Except Failure (RuleSet κ π ρ) :=
  match pattern.compile rules.eliminateEpsilon with
  | .error failure => .error failure
  | .ok automaton =>
      .ok { rules with
        engine := rules.engine.addAutomaton automaton
        actions := rules.actions.push action }

/-- The first of the steps whose automaton has the least index. -/
def earliest? : List Step → Option Step
  | [] => none
  | step :: rest =>
      match earliest? rest with
      | none => some step
      | some best => if best.automaton < step.automaton then some best else some step

def apply [Matches κ (Node π)] (rules : RuleSet κ π ρ) (tree : Tree π) : Except Failure ρ :=
  let traversal := rules.engine.traverse tree
  match rules.engine.acceptedSteps traversal with
  | .error failure => .error failure
  | .ok accepted =>
      match earliest? accepted with
      | none => .error .noRuleMatched
      | some step =>
          match rules.engine.derivationOf traversal step with
          | .error failure => .error failure
          | .ok derivation =>
              match Engine.consumedNodes traversal derivation, rules.actions[step.automaton]? with
              | .ok nodes, some action => .ok (action tree nodes)
              | .ok _, none => .error .outOfRange
              | .error failure, _ => .error failure

end RuleSet

end TreePattern
