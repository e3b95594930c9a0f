import TreePattern.Failure

/-!
# Ordered labelled trees

A tree is an array of nodes, each of which has a symbol, the list of its children, the index of its
parent and its own place among its siblings; a leaf may carry a value, and any node a payload.
A node is named by its index in the array, and the root is node 0. Trees come from `Tree.leaf` and
from `TreeBuilder`, which append the nodes in depth-first pre-order.
-/

set_option autoImplicit false

namespace TreePattern

universe u

variable {π : Type u}

structure Node (π : Type u) where
  symbol : String
  value : Option String := none
  parent : Option Nat := none
  children : List Nat := []
  index : Nat := 0
  payload : Option π := none
  deriving Repr

namespace Node

def isLeaf (node : Node π) : Bool := node.children.isEmpty

def isRoot (node : Node π) : Bool := node.parent.isNone

end Node

structure Tree (π : Type u) where
  nodes : Array (Node π)
  deriving Repr

namespace Tree

def root : Nat := 0

def leaf (symbol : String) (value : Option String) : Tree π where
  nodes := #[{ symbol := symbol, value := value }]

def size (tree : Tree π) : Nat := tree.nodes.size

def isEmpty (tree : Tree π) : Bool := tree.nodes.isEmpty

def get? (tree : Tree π) (id : Nat) : Option (Node π) := tree.nodes[id]?

def get (tree : Tree π) (id : Nat) : Except Failure (Node π) :=
  match tree.get? id with
  | some node => .ok node
  | none => .error .outOfRange

/-- The children of a node; an unknown node has none. -/
def childrenOf (tree : Tree π) (id : Nat) : List Nat :=
  match tree.get? id with
  | some node => node.children
  | none => []

/-- The sibling immediately before `id`; the root and first children have none. -/
def previousSibling? (tree : Tree π) (id : Nat) : Option Nat :=
  (tree.get? id).bind fun node =>
    node.parent.bind fun parent =>
      if node.index = 0 then none else (tree.childrenOf parent)[node.index - 1]?

def previousSibling (tree : Tree π) (id : Nat) : Except Failure (Option Nat) :=
  if id < tree.size then .ok (tree.previousSibling? id) else .error .outOfRange

def lastChildren (tree : Tree π) : Nat → Nat → List Nat
  | 0, _ => []
  | length + 1, id =>
      match (tree.childrenOf id).getLast? with
      | some child => child :: tree.lastChildren length child
      | none => []

/-- The node itself, its last child, the last child of that, and so on to a leaf. A child is
numbered after its parent, so the path is no longer than the tree has nodes. -/
def rightmostPathFrom (tree : Tree π) (id : Nat) : List Nat :=
  id :: tree.lastChildren tree.size id

def rightmostPath (tree : Tree π) (id : Nat) : Except Failure (List Nat) :=
  if id < tree.size then .ok (tree.rightmostPathFrom id) else .error .outOfRange

theorem get_eq_ok_iff (tree : Tree π) (id : Nat) (node : Node π) :
    tree.get id = .ok node ↔ tree.get? id = some node := by
  unfold get
  split <;> simp_all

theorem get_eq_error_iff (tree : Tree π) (id : Nat) (failure : Failure) :
    tree.get id = .error failure ↔ tree.size ≤ id ∧ failure = .outOfRange := by
  unfold get get? size
  by_cases bound : id < tree.nodes.size
  · have known : ¬ tree.nodes.size ≤ id := Nat.not_le_of_lt bound
    simp [bound, known]
  · simp [Nat.le_of_not_lt bound, eq_comm]

theorem children_of_eq_of_get {tree : Tree π} {id : Nat} {node : Node π}
    (found : tree.get? id = some node) : tree.childrenOf id = node.children := by
  simp [childrenOf, found]

end Tree

end TreePattern
