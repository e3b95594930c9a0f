import Mathlib.Data.List.Chain
import TreePattern.Proofs.Tree.Arena
import TreePattern.Proofs.Tree.Built

/-!
# The subtrees that end in front of a node

Following last children down from a node ends at a leaf, which is the last node of the subtree. The
path goes through exactly the nodes below the first one whose subtrees end there. When it begins at
the previous sibling of a node, no other subtree of the tree ends there: the path is then the set of
all subtrees that end right in front of that node.
-/

set_option autoImplicit false

namespace TreePattern

universe u

variable {π : Type u}

namespace Tree

/-- The path leads from the node to its last child, from there to the last child again, and so on,
until it comes to a leaf. -/
inductive DescendsLast (tree : Tree π) : Nat → List Nat → Prop where
  | leaf {id : Nat} {node : Node π} (found : tree.get? id = some node)
      (bare : node.children = []) : DescendsLast tree id [id]
  | child {id child : Nat} {node : Node π} {path : List Nat} (found : tree.get? id = some node)
      (isLast : node.children.getLast? = some child) (rest : DescendsLast tree child path) :
      DescendsLast tree id (id :: path)

structure LastDescendant (tree : Tree π) (id last : Nat) : Prop where
  below : tree.Below id last
  greatest : ∀ other, tree.Below id other → other ≤ last

/-- The rightmost path of `id` is found, runs down to the leaf `last` through increasing indices,
and goes through all nodes of the tree whose last descendant that leaf is. -/
structure CollectsEndsAt (tree : Tree π) (id last : Nat) (path : List Nat) : Prop where
  found : tree.rightmostPath id = .ok path
  descends : tree.DescendsLast id path
  increasing : path.Pairwise (· < ·)
  ends : path.getLast? = some last
  atLeaf : ∃ node, tree.get? last = some node ∧ node.isLeaf = true
  members : ∀ other, other ∈ path ↔ tree.LastDescendant other last

variable {tree : Tree π} {id last stop : Nat}

section Descent

variable {path : List Nat}

theorem DescendsLast.head (descends : tree.DescendsLast id path) : path.head? = some id := by
  cases descends <;> rfl

theorem DescendsLast.increasing (ordered : tree.IsPreorder) (descends : tree.DescendsLast id path) :
    path.Pairwise (· < ·) := by
  rw [← List.isChain_iff_pairwise]
  induction descends with
  | leaf => exact .singleton _
  | @child id child node path found isLast rest induction =>
      apply List.isChain_cons.2
      refine ⟨?_, induction⟩
      intro next isNext
      rw [rest.head, Option.mem_some_iff] at isNext
      rw [← isNext]
      exact (ordered.child found (List.mem_of_getLast? isLast)).1

theorem DescendsLast.ends (descends : tree.DescendsLast id path)
    (fills : tree.Fills id (last + 1)) :
    path.getLast? = some last ∧ ∃ node, tree.get? last = some node ∧ node.isLeaf = true := by
  induction descends with
  | @leaf id node found bare =>
      obtain ⟨node', found', inner⟩ := fills
      rw [found] at found'
      cases found'
      rw [bare] at inner
      have same := Nat.succ.inj inner.start_eq_of_nil
      subst same
      exact ⟨rfl, node, found, List.isEmpty_iff.2 bare⟩
  | @child id child node path found isLast rest induction =>
      obtain ⟨node', found', inner⟩ := fills
      rw [found] at found'
      cases found'
      obtain ⟨ends, atLeaf⟩ := induction (inner.last_child isLast)
      refine ⟨?_, atLeaf⟩
      rw [List.getLast?_cons, ends]
      rfl

/-- There are at most as many nodes further down as the subtree has indices. -/
theorem Fills.descends_last (fills : tree.Fills id stop) (length : Nat)
    (enough : stop ≤ id + 1 + length) :
    tree.DescendsLast id (id :: tree.lastChildren length id) := by
  induction length generalizing id with
  | zero =>
      obtain ⟨node, found⟩ := exists_of_lt_size fills.lt_size
      apply DescendsLast.leaf found
      apply Classical.byContradiction
      intro inner
      have wide := fills.inner_stop found inner
      omega
  | succ length induction =>
      obtain ⟨node, found, inner⟩ := fills
      rw [lastChildren, children_of_eq_of_get found]
      cases isLast : node.children.getLast? with
      | none => exact .leaf found (List.getLast?_eq_none_iff.1 isLast)
      | some child =>
          have behind := (inner.member_fills (List.mem_of_getLast? isLast)).1
          exact .child found isLast (induction (inner.last_child isLast) (by omega))

end Descent

namespace IsPreorder

theorem last_descendant_iff (ordered : tree.IsPreorder) (known : last < tree.size) :
    tree.LastDescendant id last ↔ tree.Fills id (last + 1) := by
  constructor
  · intro isLast
    have lower := ordered.le_of_below isLast.below
    obtain ⟨stop, fills, -⟩ := ordered.fills (Nat.lt_of_le_of_lt lower known)
    have inside := ((ordered.below_iff fills last).1 isLast.below).2
    have begins := fills.lt_stop
    have greatest := isLast.greatest (stop - 1)
      ((ordered.below_iff fills _).2 ⟨by omega, by omega⟩)
    have ends : stop = last + 1 := by omega
    exact ends ▸ fills
  · intro fills
    have begins := fills.lt_stop
    constructor
    · exact (ordered.below_iff fills last).2 ⟨by omega, Nat.lt_succ_self last⟩
    · intro other below
      exact Nat.le_of_lt_succ ((ordered.below_iff fills other).1 below).2

/-- The rightmost path of the first of the nodes that end at some place is all of these nodes. -/
theorem collects_ends_at (ordered : tree.IsPreorder) (fills : tree.Fills id (last + 1))
    (first : ∀ other, tree.Fills other (last + 1) → id ≤ other) :
    tree.CollectsEndsAt id last (tree.rightmostPathFrom id) := by
  obtain ⟨stop, again, bound⟩ := ordered.fills fills.lt_size
  have same := fills.stop_unique again
  subst same
  have descends := fills.descends_last tree.size (by omega)
  obtain ⟨ends, atLeaf⟩ := descends.ends fills
  refine ⟨?_, descends, descends.increasing ordered, ends, atLeaf, ?_⟩
  · rw [rightmostPath, if_pos fills.lt_size]
  · intro other
    rw [mem_rightmost_path fills bound, ordered.last_descendant_iff bound]
    constructor
    · intro onPath
      exact onPath.2
    · intro otherFills
      exact ⟨first other otherFills, otherFills⟩

theorem previous_sibling_fills (ordered : tree.IsPreorder) {sibling : Nat}
    (previous : tree.previousSibling id = .ok (some sibling)) :
    tree.Fills sibling id ∧ ∀ other, tree.Fills other id → sibling ≤ other := by
  unfold previousSibling at previous
  split at previous
  · rename_i bound
    rw [Except.ok.injEq] at previous
    obtain ⟨node, found⟩ := exists_of_lt_size bound
    rcases ordered.locate found with isRoot | hangs
    · simp [previousSibling?, found, isRoot.2.1] at previous
    · by_cases first : node.index = 0
      · simp [previousSibling?, found, first] at previous
      · obtain ⟨other, isPrevious, fills, earliest⟩ := hangs.previous_sibling found first
        rw [isPrevious, Option.some.injEq] at previous
        rw [← previous]
        exact ⟨fills, earliest⟩
  · cases previous

end IsPreorder

/-- The rightmost path of the previous sibling of a node is the set of the nodes whose last
descendant stands right in front of that node. The rightmost path of the root is the set of the
nodes whose last descendant is the last node of the tree. -/
theorem rightmost_paths_collect_ends (built : tree.Built) :
    (∀ id sibling, tree.previousSibling id = .ok (some sibling) →
      ∃ last path, last + 1 = id ∧ tree.CollectsEndsAt sibling last path) ∧
      ∃ last path, last + 1 = tree.size ∧ tree.CollectsEndsAt root last path := by
  have ordered := built.is_preorder
  constructor
  · intro id sibling previous
    obtain ⟨fills, first⟩ := ordered.previous_sibling_fills previous
    obtain ⟨last, same⟩ := Nat.exists_eq_add_one_of_ne_zero (Nat.ne_zero_of_lt fills.lt_stop)
    subst same
    exact ⟨last, _, rfl, ordered.collects_ends_at fills first⟩
  · have fills := ordered.root_fills
    obtain ⟨last, same⟩ := Nat.exists_eq_add_one_of_ne_zero (Nat.ne_zero_of_lt fills.lt_stop)
    rw [same] at fills
    exact ⟨last, _, same.symm, ordered.collects_ends_at fills fun other _ => Nat.zero_le other⟩

/-- Three levels below node 1, which ends where nodes 3 and 4 end, and node 5 behind it. -/
def stairsTree : Tree Unit where
  nodes := #[
    { symbol := "a", children := [1, 5] },
    { symbol := "b", parent := some 0, children := [2, 3] },
    { symbol := "c", parent := some 1, value := some "1" },
    { symbol := "d", parent := some 1, index := 1, children := [4] },
    { symbol := "e", parent := some 3 },
    { symbol := "f", parent := some 0, index := 1 }]

theorem stairs_tree_built : stairsTree.Built :=
  .steps (show Tree.ofSteps "a" [.node "b" [.leaf "c" "1", .node "d" [.emptyLeaf "e"]],
    .emptyLeaf "f"] = .ok stairsTree from rfl)

theorem rightmost_paths_collect_ends_stairs :
    stairsTree.Built ∧ stairsTree.previousSibling 5 = .ok (some 1) ∧
      stairsTree.CollectsEndsAt 1 4 [1, 3, 4] ∧ stairsTree.CollectsEndsAt root 5 [0, 5] := by
  obtain ⟨siblings, last, path, ends, whole⟩ := rightmost_paths_collect_ends stairs_tree_built
  obtain ⟨before, siblingPath, siblingEnds, sibling⟩ := siblings 5 1 rfl
  cases ends
  cases siblingEnds
  cases whole.found
  cases sibling.found
  exact ⟨stairs_tree_built, rfl, sibling, whole⟩

end Tree

end TreePattern
