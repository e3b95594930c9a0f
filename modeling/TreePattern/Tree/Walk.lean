import TreePattern.Tree.Basic

/-!
# Depth-first walks

A walk visits the nodes below some node in depth-first order and reports when it enters a node,
before the children, and when it leaves it, after them. Its state is the list of the reports that
are already certain: the open nodes that it still has to leave, and in front of each the siblings
that wait to be entered.
-/

set_option autoImplicit false

namespace TreePattern

universe u

variable {π : Type u}

inductive Event where
  | enter (id : Nat)
  | leave (id : Nat)
  deriving DecidableEq, Repr

namespace Event

def entered? : Event → Option Nat
  | .enter id => some id
  | .leave _ => none

def left? : Event → Option Nat
  | .enter _ => none
  | .leave id => some id

end Event

/-- The reports to come, the next one first. -/
structure Walk where
  pending : List Event
  deriving DecidableEq, Repr

namespace Walk

def start (id : Nat) : Walk := ⟨[.enter id]⟩

/-- The next report, none at the end. Entering a node makes its children wait in front of its
leaving. An unknown node cannot be entered, but it counts as open from then on. -/
def next (tree : Tree π) (walk : Walk) : Except Failure (Option Event) × Walk :=
  match walk.pending with
  | [] => (.ok none, walk)
  | .leave id :: rest => (.ok (some (.leave id)), ⟨rest⟩)
  | .enter id :: rest =>
      match tree.get? id with
      | some node => (.ok (some (.enter id)), ⟨node.children.map .enter ++ .leave id :: rest⟩)
      | none => (.error .outOfRange, ⟨.leave id :: rest⟩)

/-- Gives up the nodes that wait to be entered inside the innermost open node. -/
def prune (walk : Walk) : Walk := ⟨walk.pending.dropWhile (·.entered?.isSome)⟩

def ancestors (walk : Walk) : List Nat := walk.pending.filterMap Event.left?

def takeReports (tree : Tree π) : Nat → Walk → Except Failure (List Event) × Walk
  | 0, walk => (.ok [], walk)
  | count + 1, walk =>
      match walk.next tree with
      | (.error failure, after) => (.error failure, after)
      | (.ok none, after) => (.ok [], after)
      | (.ok (some event), after) =>
          match takeReports tree count after with
          | (.ok events, finished) => (.ok (event :: events), finished)
          | (.error failure, finished) => (.error failure, finished)

/-- All reports left. A tree has two for each of its nodes. -/
def rest (tree : Tree π) (walk : Walk) : Except Failure (List Event) × Walk :=
  walk.takeReports tree (walk.pending.length + 2 * tree.size)

end Walk

namespace Tree

def events (tree : Tree π) : Except Failure (List Event) := ((Walk.start root).rest tree).1

def preorder (tree : Tree π) : List Nat :=
  match tree.events with
  | .ok events => events.filterMap Event.entered?
  | .error _ => []

end Tree

theorem Walk.next_leave (tree : Tree π) (id : Nat) (rest : List Event) :
    Walk.next tree ⟨.leave id :: rest⟩ = (.ok (some (.leave id)), ⟨rest⟩) := rfl

theorem Walk.next_enter {tree : Tree π} {id : Nat} {node : Node π}
    (found : tree.get? id = some node) (rest : List Event) :
    Walk.next tree ⟨.enter id :: rest⟩ =
      (.ok (some (.enter id)), ⟨node.children.map .enter ++ .leave id :: rest⟩) := by
  simp [Walk.next, found]

theorem Walk.ancestors_prune (walk : Walk) : walk.prune.ancestors = walk.ancestors := by
  obtain ⟨pending⟩ := walk
  simp only [Walk.prune, Walk.ancestors]
  induction pending with
  | nil => rfl
  | cons event rest induction =>
      cases event with
      | enter id =>
          rw [List.dropWhile_cons_of_pos rfl, induction]
          rfl
      | leave id => simp [Event.entered?]

end TreePattern
