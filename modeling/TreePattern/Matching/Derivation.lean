import TreePattern.Matching.Traversal

/-!
# Accepted steps and derivations

A match is over when a step on the rightmost path of the whole tree reaches an accepting state. The
nodes that it consumed are found by following its steps backwards: a step is preceded by a step that
was recorded at the position it comes from and that reached the state it starts in.
-/

set_option autoImplicit false

namespace TreePattern

universe u v

namespace Engine

variable {κ : Type u} {π : Type v}

/-- Whether the step reaches an accepting state of its automaton, which must be one of the
engine's. -/
def reachesAccepting (engine : Engine κ) (step : Step) : Bool :=
  match engine.automata[step.automaton]? with
  | some automaton => automaton.isAccepting step.target
  | none => false

def finalSteps (traversal : Traversal π) : List Step :=
  (traversal.tree.rightmostPathFrom Tree.root).flatMap traversal.allStepsAt

/-- The last steps of all matches, in order. A traversal made with more automata than the engine
has may hold steps of an automaton that the engine does not know. -/
def acceptedSteps (engine : Engine κ) (traversal : Traversal π) : Except Failure (List Step) :=
  let final := finalSteps traversal
  if final.all (·.automaton < engine.automata.size) then
    .ok (orderByKey Step.key (final.filter engine.reachesAccepting))
  else .error .outOfRange

/-- The recorded steps that hand off to `step`, which comes from `position`, in order. -/
def predecessors (traversal : Traversal π) (step : Step) (position : Nat) :
    Except Failure (List Step) :=
  match traversal.nodeAt position with
  | .error failure => .error failure
  | .ok id =>
      match (traversal.fields[id]?).bind (·.steps[step.automaton]?) with
      | none => .error .outOfRange
      | some steps =>
          .ok (steps.filter fun other => other.position = position && other.target = step.source)

def followBack (engine : Engine κ) (traversal : Traversal π) :
    Nat → Step → List Step → Except Failure (List Step)
  | 0, step, later => .ok (step :: later)
  | count + 1, step, later =>
      match step.last with
      | none => .ok (step :: later)
      | some position =>
          match predecessors traversal step position with
          | .error failure => .error failure
          | .ok [] => .error (.noPredecessor step position)
          | .ok (found :: others) =>
              if engine.policy = .strict ∧ others ≠ [] then
                .error (.ambiguousDerivation position step.source)
              else engine.followBack traversal count found (step :: later)

/-- The derivation that ends in `step`, first step first. Positions decrease on the way back, so
there are no more steps to follow than positions. -/
def derivationOf (engine : Engine κ) (traversal : Traversal π) (step : Step) :
    Except Failure (List Step) :=
  engine.followBack traversal (traversal.visited.size + 1) step []

def derivations (engine : Engine κ) (traversal : Traversal π) :
    Except Failure (List (List Step)) := do
  (← engine.acceptedSteps traversal).mapM (engine.derivationOf traversal)

def consumedNodes (traversal : Traversal π) (steps : List Step) : Except Failure (List Nat) :=
  steps.mapM fun step => traversal.nodeAt step.position

end Engine

end TreePattern
