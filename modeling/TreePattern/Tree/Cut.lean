import TreePattern.Tree.Basic

/-!
# Cuts

A cut of a node is a sequence of nodes below it that covers all of its leaves once, from left to
right: either the node alone or, if it has children, cuts of the children one after the other. Cuts
are what a linear pattern can consume of a tree.
-/

set_option autoImplicit false

namespace TreePattern

universe u

variable {π : Type u}

namespace Tree

mutual

inductive Cut (tree : Tree π) : Nat → List Nat → Prop where
  | here (id : Nat) : Cut tree id [id]
  | inside {id : Nat} {node : Node π} {nodes : List Nat} (found : tree.get? id = some node)
      (inner : node.children ≠ []) (parts : Cuts tree node.children nodes) : Cut tree id nodes

inductive Cuts (tree : Tree π) : List Nat → List Nat → Prop where
  | nil : Cuts tree [] []
  | cons {id : Nat} {rest first others : List Nat} (part : Cut tree id first)
      (parts : Cuts tree rest others) : Cuts tree (id :: rest) (first ++ others)

end

theorem cut_leaf {tree : Tree π} {id : Nat} {node : Node π} {nodes : List Nat}
    (found : tree.get? id = some node) (bare : node.isLeaf = true) (cut : tree.Cut id nodes) :
    nodes = [id] := by
  cases cut with
  | here => rfl
  | inside found' inner parts =>
      rw [found] at found'
      cases found'
      simp [Node.isLeaf, inner] at bare

theorem cuts_singletons (tree : Tree π) (ids : List Nat) : tree.Cuts ids ids := by
  induction ids with
  | nil => exact .nil
  | cons id rest induction => exact .cons (.here id) induction

theorem cut_children {tree : Tree π} {id : Nat} {node : Node π}
    (found : tree.get? id = some node) (inner : node.children ≠ []) :
    tree.Cut id node.children :=
  .inside found inner (tree.cuts_singletons node.children)

end Tree

end TreePattern
