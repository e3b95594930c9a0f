import TreePattern.Automaton.Basic
import TreePattern.Condition.NodeTest
import TreePattern.Matching.Ordered
import TreePattern.Matching.Step
import TreePattern.Settings.Basic
import TreePattern.Tree.Walk

/-!
# Traversals

An engine visits the nodes of a tree in depth-first pre-order and records, for each node and each of
its automata, the attempts that enter the node and the steps by which they move through it. A fresh
attempt enters the root; a first child takes over the attempts of its parent; any other node
continues the steps recorded along the rightmost path of the sibling before it. An attempt moves by
the first transition that matches the node, and ends where there is none.
-/

set_option autoImplicit false

namespace TreePattern

universe u v

inductive NodeKind where
  | root
  | firstChild
  | laterSibling
  deriving DecidableEq, Repr

structure Engine (κ : Type u) where
  automata : Array (Automaton κ) := #[]
  policy : Policy := .first

/-- What a traversal knows of one node; both arrays are indexed by automaton, and their lists are
in order. -/
structure Field where
  position : Option Nat := none
  attempts : Array (List Attempt)
  steps : Array (List Step)
  deriving Repr

def Field.blank (automata : Nat) : Field where
  attempts := Array.replicate automata []
  steps := Array.replicate automata []

/-- Fields are indexed by node, `visited` by position. -/
structure Traversal (π : Type v) where
  tree : Tree π
  fields : Array Field
  visited : Array Nat

namespace Traversal

variable {π : Type v}

def blank (tree : Tree π) (automata : Nat) : Traversal π where
  tree := tree
  fields := Array.replicate tree.size (Field.blank automata)
  visited := #[]

def reset (traversal : Traversal π) (automata : Nat) : Traversal π :=
  { traversal with
    fields := traversal.fields.map fun _ => Field.blank automata
    visited := #[] }

def field (traversal : Traversal π) (id : Nat) : Except Failure Field :=
  match traversal.fields[id]? with
  | some field => .ok field
  | none => .error .outOfRange

def nodeOf? (traversal : Traversal π) (position : Nat) : Option Nat := traversal.visited[position]?

def positionOf? (traversal : Traversal π) (id : Nat) : Option Nat :=
  (traversal.fields[id]?).bind (·.position)

def nodeAt (traversal : Traversal π) (position : Nat) : Except Failure Nat :=
  match traversal.nodeOf? position with
  | some id => .ok id
  | none => .error (.noNodeAt position)

def attemptsAt (traversal : Traversal π) (id automaton : Nat) : List Attempt :=
  ((traversal.fields[id]?).bind (·.attempts[automaton]?)).getD []

def stepsAt (traversal : Traversal π) (id automaton : Nat) : List Step :=
  ((traversal.fields[id]?).bind (·.steps[automaton]?)).getD []

def allStepsAt (traversal : Traversal π) (id : Nat) : List Step :=
  ((traversal.fields[id]?).map fun field => field.steps.toList.flatten).getD []

end Traversal

namespace Node

variable {π : Type v}

def kind (node : Node π) : NodeKind :=
  if node.isRoot then .root
  else if node.index = 0 then .firstChild
  else .laterSibling

end Node

namespace Engine

variable {κ : Type u} {π : Type v}

def addAutomaton (engine : Engine κ) (automaton : Automaton κ) : Engine κ :=
  { engine with automata := engine.automata.push automaton }

def nodeKind (tree : Tree π) (id : Nat) : Except Failure NodeKind :=
  (tree.get id).map (·.kind)

/-- The attempts that enter a node, for the automaton with the given index. -/
def enteringAttempts (traversal : Traversal π) (id : Nat) (node : Node π) (index : Nat)
    (automaton : Automaton κ) : List Attempt :=
  match node.kind with
  | .root => [⟨none, automaton.start, index⟩]
  | .firstChild => traversal.attemptsAt (node.parent.getD id) index
  | .laterSibling =>
      let sibling := (traversal.tree.previousSibling? id).getD id
      orderByKey Attempt.key
        ((traversal.tree.rightmostPathFrom sibling).flatMap fun other =>
          (traversal.stepsAt other index).map Step.handoff)

def passThrough [Matches κ (Node π)] (automaton : Automaton κ) (node : Node π) (position : Nat)
    (attempts : List Attempt) : List Step :=
  attempts.filterMap fun attempt =>
    (automaton.destination? attempt.state node).map (attempt.advance position)

/-- Visits one node, which takes the next position. An unknown node is left out. -/
def visit [Matches κ (Node π)] (engine : Engine κ) (traversal : Traversal π) (id : Nat) :
    Traversal π :=
  match traversal.tree.get? id with
  | none => traversal
  | some node =>
      let position := traversal.visited.size
      let attempts := engine.automata.mapIdx fun index automaton =>
        enteringAttempts traversal id node index automaton
      let steps := engine.automata.mapIdx fun index automaton =>
        passThrough automaton node position (attempts[index]?.getD [])
      { traversal with
        fields := traversal.fields.setIfInBounds id ⟨some position, attempts, steps⟩
        visited := traversal.visited.push id }

def retraverse [Matches κ (Node π)] (engine : Engine κ) (traversal : Traversal π) :
    Traversal π :=
  traversal.tree.preorder.foldl engine.visit (traversal.reset engine.automata.size)

def traverse [Matches κ (Node π)] (engine : Engine κ) (tree : Tree π) : Traversal π :=
  engine.retraverse (.blank tree engine.automata.size)

end Engine

end TreePattern
