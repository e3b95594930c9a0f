import TreePattern.Proofs.Tree.Preorder
import TreePattern.Proofs.Tree.Standing

/-!
# Well-formed arenas

The links of a tree in pre-order agree with each other: what a node says of its parent and of its
place there is what the parent's list of children says, and no node is listed twice. Parents come
before their children and lists of children are increasing, so links never run in a circle.
-/

set_option autoImplicit false

namespace TreePattern

universe u

variable {π : Type u}

namespace Tree

/-- The links up and the links down agree, and a walk enters the nodes in the order of the array. -/
structure WellFormed (tree : Tree π) : Prop where
  rooted : root < tree.size
  orphan : ∀ id node, tree.get? id = some node → (node.parent = none ↔ id = root)
  upward : ∀ id node outer, tree.get? id = some node → node.parent = some outer → outer < id
  listed : ∀ outer place id, (tree.childrenOf outer)[place]? = some id ↔
    ∃ node, tree.get? id = some node ∧ node.parent = some outer ∧ node.index = place
  increasing : ∀ outer, (tree.childrenOf outer).Pairwise (· < ·)
  valued : ∀ id node, tree.get? id = some node → node.value ≠ none → node.children = []
  ends : ((Walk.start root).rest tree).2 = ⟨[]⟩
  preorder : tree.preorder = List.range tree.size

variable {tree : Tree π} {id : Nat} {node : Node π}

def EndsBefore (tree : Tree π) (id other : Nat) : Prop :=
  ∃ stop, tree.Fills id stop ∧ stop ≤ other

theorem EndsBefore.lt {other : Nat} (before : tree.EndsBefore id other) : id < other := by
  obtain ⟨stop, fills, ends⟩ := before
  exact Nat.lt_of_lt_of_le fills.lt_stop ends

theorem Spans.apart {parent : Option Nat} {place start stop : Nat} {ids : List Nat}
    (spans : tree.Spans parent place ids start stop) : ids.Pairwise tree.EndsBefore := by
  induction spans with
  | nil => exact .nil
  | @cons parent place first middle stop firstNode rest found above placed plain inner others
      _ othersApart =>
      apply List.Pairwise.cons _ othersApart
      intro later member
      exact ⟨middle, ⟨firstNode, found, inner⟩, (others.member_fills member).1⟩

theorem Spans.increasing {parent : Option Nat} {place start stop : Nat} {ids : List Nat}
    (spans : tree.Spans parent place ids start stop) : ids.Pairwise (· < ·) :=
  spans.apart.imp EndsBefore.lt

theorem Below.lt_size {top : Nat} (below : tree.Below top id) (known : top < tree.size) :
    id < tree.size := by
  cases below with
  | here => exact known
  | child found => exact lt_size_of_found found

namespace IsPreorder

theorem root_lt_size (ordered : tree.IsPreorder) : root < tree.size :=
  ordered.root_fills.lt_size

theorem children_span (ordered : tree.IsPreorder) (found : tree.get? id = some node) :
    ∃ stop, tree.Spans (some id) 0 node.children (id + 1) stop := by
  obtain ⟨stop, ⟨other, same, spans⟩, -⟩ := ordered.fills (lt_size_of_found found)
  rw [found] at same
  cases same
  exact ⟨stop, spans⟩

theorem parent_eq_none_iff (ordered : tree.IsPreorder) (found : tree.get? id = some node) :
    node.parent = none ↔ id = root := by
  rcases ordered.locate found with isRoot | hangs
  · exact iff_of_true isRoot.2.1 isRoot.1
  · cases hangs with
    | @under outer last above known spans listed up =>
        have behind := (ordered.parent_fills found up).1
        apply iff_of_false
        · rw [up]
          exact Option.some_ne_none outer
        · intro isRoot
          rw [isRoot] at behind
          exact Nat.not_lt_zero outer behind

/-- A node is listed by its parent at its own place, and nowhere else. -/
theorem listed_iff (ordered : tree.IsPreorder) (outer place id : Nat) :
    (tree.childrenOf outer)[place]? = some id ↔
      ∃ node, tree.get? id = some node ∧ node.parent = some outer ∧ node.index = place := by
  constructor
  · intro listed
    cases known : tree.get? outer with
    | none =>
        rw [childrenOf, known] at listed
        cases listed
    | some above =>
        rw [children_of_eq_of_get known] at listed
        obtain ⟨stop, spans⟩ := ordered.children_span known
        obtain ⟨-, last, fills, -⟩ := spans.member_fills (List.mem_of_getElem? listed)
        obtain ⟨node, found⟩ := exists_of_lt_size fills.lt_size
        obtain ⟨up, index⟩ := spans.stands listed found
        rw [Nat.zero_add] at index
        exact ⟨node, found, up, index⟩
  · intro stands
    obtain ⟨node, found, up, index⟩ := stands
    rcases ordered.locate found with isRoot | hangs
    · rw [isRoot.2.1] at up
      cases up
    · cases hangs with
      | @under other last above known spans listed up' =>
          rw [up] at up'
          cases up'
          rw [children_of_eq_of_get known, ← index]
          exact listed

theorem children_increasing (ordered : tree.IsPreorder) (outer : Nat) :
    (tree.childrenOf outer).Pairwise (· < ·) := by
  cases known : tree.get? outer with
  | none =>
      rw [childrenOf, known]
      exact .nil
  | some above =>
      obtain ⟨stop, spans⟩ := ordered.children_span known
      rw [children_of_eq_of_get known]
      exact spans.increasing

theorem child (ordered : tree.IsPreorder) (found : tree.get? id = some node) {child : Nat}
    (member : child ∈ node.children) :
    id < child ∧ ∃ below, tree.get? child = some below ∧ below.parent = some id := by
  obtain ⟨place, listed⟩ := List.getElem?_of_mem member
  rw [← children_of_eq_of_get found, ordered.listed_iff] at listed
  obtain ⟨below, foundBelow, up, -⟩ := listed
  exact ⟨(ordered.parent_fills foundBelow up).1, below, foundBelow, up⟩

theorem le_of_below (ordered : tree.IsPreorder) {top : Nat} (below : tree.Below top id) :
    top ≤ id := by
  induction below with
  | here => exact Nat.le_refl _
  | child found up _ inside =>
      have behind := (ordered.parent_fills found up).1
      exact Nat.le_trans inside (Nat.le_of_lt behind)

theorem index_lt (ordered : tree.IsPreorder) (found : tree.get? id = some node) {other : Nat}
    {otherNode : Node π} (otherFound : tree.get? other = some otherNode)
    (siblings : node.parent = otherNode.parent) (before : id < other) :
    node.index < otherNode.index := by
  cases up : node.parent with
  | none =>
      have first := (ordered.parent_eq_none_iff found).1 up
      have second := (ordered.parent_eq_none_iff otherFound).1 (siblings ▸ up)
      omega
  | some outer =>
      have listed := (ordered.listed_iff outer _ id).2 ⟨node, found, up, rfl⟩
      have otherListed :=
        (ordered.listed_iff outer _ other).2 ⟨otherNode, otherFound, siblings ▸ up, rfl⟩
      obtain ⟨bound, same⟩ := List.getElem?_eq_some_iff.1 listed
      obtain ⟨otherBound, otherSame⟩ := List.getElem?_eq_some_iff.1 otherListed
      have sorted := List.pairwise_iff_getElem.1 (ordered.children_increasing outer)
      apply Nat.lt_of_not_le
      intro behind
      rcases Nat.eq_or_lt_of_le behind with equal | smaller
      · rw [← equal, otherListed, Option.some.injEq] at listed
        omega
      · have after := sorted _ _ otherBound bound smaller
        omega

theorem plain (ordered : tree.IsPreorder) (found : tree.get? id = some node) :
    node.value = none ∨ node.children = [] := by
  rcases ordered.locate found with isRoot | hangs
  · obtain ⟨same, -, -⟩ := isRoot
    exact Spans.plain ordered (List.mem_singleton.2 same) found
  · cases hangs with
    | under known spans listed up => exact spans.plain (List.mem_of_getElem? listed) found

theorem well_formed (ordered : tree.IsPreorder) : tree.WellFormed where
  rooted := ordered.root_lt_size
  orphan id node found := ordered.parent_eq_none_iff found
  upward id node outer found up := (ordered.parent_fills found up).1
  listed := ordered.listed_iff
  increasing := ordered.children_increasing
  valued id node found valued := (ordered.plain found).resolve_left valued
  ends := by
    obtain ⟨events, reported, -⟩ := ordered.exists_events
    rw [reported]
  preorder := ordered.preorder_eq

end IsPreorder

end Tree

end TreePattern
