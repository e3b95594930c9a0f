import TreePattern.Proofs.Tree.Span

/-!
# Where a node stands

Every node but the root is listed among the children of its parent, at the place that it says. Its
previous sibling is the child listed before it, whose subtree ends in front of it; the rightmost
path of a node is all the nodes of its subtree that end where it ends.
-/

set_option autoImplicit false

namespace TreePattern

universe u

variable {π : Type u}

namespace Tree

variable {tree : Tree π} {id : Nat} {node : Node π}

inductive Hangs (tree : Tree π) (id : Nat) (node : Node π) : Prop where
  | under {outer last : Nat} {above : Node π} (known : tree.get? outer = some above)
      (spans : tree.Spans (some outer) 0 above.children (outer + 1) last)
      (listed : above.children[node.index]? = some id) (up : node.parent = some outer)

/-- A node `id` is below `top` if `top` is `id` itself or one of its ancestors. -/
inductive Below (tree : Tree π) (top : Nat) : Nat → Prop where
  | here : Below tree top top
  | child {id outer : Nat} {node : Node π} (found : tree.get? id = some node)
      (up : node.parent = some outer) (above : Below tree top outer) : Below tree top id

theorem Spans.locate {parent : Option Nat} {place start stop : Nat} {ids : List Nat}
    (spans : tree.Spans parent place ids start stop) (lower : start ≤ id) (upper : id < stop)
    (found : tree.get? id = some node) :
    (∃ offset, ids[offset]? = some id ∧ node.parent = parent ∧ node.index = place + offset) ∨
      tree.Hangs id node := by
  induction spans with
  | nil => omega
  | @cons parent place first middle stop firstNode rest firstFound above placed plain inner others
      innerLocates othersLocate =>
      have before := inner.start_le_stop
      by_cases isFirst : id = first
      · subst isFirst
        rw [firstFound] at found
        cases found
        exact Or.inl ⟨0, rfl, above, placed⟩
      · by_cases within : id < middle
        · rcases innerLocates (by omega) within with child | deeper
          · obtain ⟨offset, listed, up, index⟩ := child
            rw [Nat.zero_add] at index
            subst index
            exact Or.inr (.under firstFound inner listed up)
          · exact Or.inr deeper
        · rcases othersLocate (by omega) upper with sibling | deeper
          · obtain ⟨offset, listed, up, index⟩ := sibling
            exact Or.inl ⟨offset + 1, listed, up, by omega⟩
          · exact Or.inr deeper

namespace IsPreorder

theorem locate (ordered : tree.IsPreorder) (found : tree.get? id = some node) :
    (id = root ∧ node.parent = none ∧ node.index = 0) ∨ tree.Hangs id node := by
  have bound := lt_size_of_found found
  rcases Spans.locate ordered (Nat.zero_le id) bound found with isRoot | hangs
  · obtain ⟨offset, listed, up, index⟩ := isRoot
    obtain ⟨inside, same⟩ := List.getElem?_eq_some_iff.1 listed
    have first : offset = 0 := by
      simp only [List.length_singleton] at inside
      omega
    subst first
    exact Or.inl ⟨same.symm, up, index⟩
  · exact Or.inr hangs

theorem parent_fills (ordered : tree.IsPreorder) (found : tree.get? id = some node) {outer : Nat}
    (up : node.parent = some outer) :
    outer < id ∧ ∃ last, tree.Fills outer last ∧ id < last := by
  rcases ordered.locate found with isRoot | hangs
  · rw [isRoot.2.1] at up
    cases up
  · cases hangs with
    | @under outer' last above known spans listed up' =>
        rw [up] at up'
        cases up'
        obtain ⟨lower, stop, fills, ends⟩ := spans.member_fills (List.mem_of_getElem? listed)
        have begins := fills.lt_stop
        exact ⟨lower, last, ⟨above, known, spans⟩, by omega⟩

theorem le_parent (ordered : tree.IsPreorder) (found : tree.get? id = some node) {outer : Nat}
    (up : node.parent = some outer) {top stop : Nat} (fills : tree.Fills top stop)
    (behind : top < id) (within : id < stop) : top ≤ outer := by
  rcases ordered.locate found with isRoot | hangs
  · rw [isRoot.2.1] at up
    cases up
  · cases hangs with
    | @under outer' last above known spans listed up' =>
        rw [up] at up'
        cases up'
        apply Nat.le_of_not_lt
        intro beyond
        have member := List.mem_of_getElem? listed
        have ends := spans.ends_before_member member beyond behind fills
        omega

theorem below_iff (ordered : tree.IsPreorder) {top stop : Nat} (fills : tree.Fills top stop)
    (id : Nat) : tree.Below top id ↔ top ≤ id ∧ id < stop := by
  constructor
  · intro below
    induction below with
    | here => exact ⟨Nat.le_refl _, fills.lt_stop⟩
    | @child id outer node found up _ inside =>
        obtain ⟨after, last, outerFills, before⟩ := ordered.parent_fills found up
        have ends := fills.nested inside.1 inside.2 outerFills
        omega
  · intro inside
    induction id using Nat.strongRecOn with
    | ind id induction =>
        rcases Nat.eq_or_lt_of_le inside.1 with same | behind
        · subst same
          exact .here
        · obtain ⟨last, ⟨node, found, -⟩, -⟩ := fills.inside inside.1 inside.2
          rcases ordered.locate found with isRoot | hangs
          · have zero : id = 0 := isRoot.1
            omega
          · cases hangs with
            | @under outer last above known spans listed up =>
                have before := (ordered.parent_fills found up).1
                have reaches := ordered.le_parent found up fills behind inside.2
                exact .child found up (induction outer before ⟨reaches, by omega⟩)

end IsPreorder

/-- The child listed before a later sibling ends in front of it, and of all the nodes that end
there it is the first. -/
theorem Hangs.previous_sibling (hangs : tree.Hangs id node) (found : tree.get? id = some node)
    (later : node.index ≠ 0) :
    ∃ sibling, tree.previousSibling? id = some sibling ∧ tree.Fills sibling id ∧
      ∀ other, tree.Fills other id → sibling ≤ other := by
  cases hangs with
  | @under outer last above known spans listed up =>
      obtain ⟨bound, -⟩ := List.getElem?_eq_some_iff.1 listed
      have before : above.children[node.index - 1]? = some above.children[node.index - 1] :=
        List.getElem?_eq_getElem (by omega)
      have next : node.index - 1 + 1 = node.index := by omega
      have fills := spans.adjacent before (next ▸ listed)
      refine ⟨above.children[node.index - 1], ?_, fills, ?_⟩
      · simp only [previousSibling?, found, up, Option.bind_some, if_neg later,
          children_of_eq_of_get known]
        exact before
      · intro other otherFills
        apply Nat.le_of_not_lt
        intro earlier
        have siblingMember := List.mem_of_getElem? before
        have member := List.mem_of_getElem? listed
        have begins := (spans.member_fills siblingMember).1
        obtain ⟨-, stop, idFills, ends⟩ := spans.member_fills member
        have inside := idFills.lt_stop
        have siblingBefore := fills.lt_stop
        by_cases behind : outer + 1 ≤ other
        · have ends := spans.ends_before_member siblingMember behind (by omega) otherFills
          omega
        · have outerFills : tree.Fills outer last := ⟨above, known, spans⟩
          have outerEnds := otherFills.nested (by omega) (by omega) outerFills
          omega

section RightmostPath

variable {stop : Nat}

theorem mem_last_children (length : Nat) (fills : tree.Fills id stop) (other : Nat)
    (enough : stop ≤ id + 1 + length) :
    other ∈ tree.lastChildren length id ↔ id < other ∧ tree.Fills other stop := by
  induction length generalizing id with
  | zero =>
      simp only [lastChildren, List.not_mem_nil, false_iff, not_and]
      intro behind otherFills
      have ends := otherFills.lt_stop
      omega
  | succ length induction =>
      obtain ⟨node, found, inner⟩ := fills
      rw [lastChildren, children_of_eq_of_get found]
      cases last : node.children.getLast? with
      | none =>
          rw [List.getLast?_eq_none_iff] at last
          rw [last] at inner
          have ends := inner.start_eq_of_nil
          simp only [List.not_mem_nil, false_iff, not_and]
          intro behind otherFills
          have bound := otherFills.lt_stop
          omega
      | some child =>
          have childFills := inner.last_child last
          have member := List.mem_of_getLast? last
          have begins := (inner.member_fills member).1
          rw [List.mem_cons, induction childFills (by omega)]
          constructor
          · intro onPath
            rcases onPath with isChild | deeper
            · subst isChild
              exact ⟨begins, childFills⟩
            · exact ⟨by omega, deeper.2⟩
          · intro ends
            obtain ⟨behind, otherFills⟩ := ends
            rcases Nat.lt_trichotomy other child with before | same | after
            · have ends := inner.ends_before_member member behind before otherFills
              have bound := childFills.lt_stop
              omega
            · exact Or.inl same
            · exact Or.inr ⟨after, otherFills⟩

/-- The rightmost path of a node is the nodes of its subtree that end where it ends. -/
theorem mem_rightmost_path (fills : tree.Fills id stop) (bound : stop ≤ tree.size) (other : Nat) :
    other ∈ tree.rightmostPathFrom id ↔ id ≤ other ∧ tree.Fills other stop := by
  rw [rightmostPathFrom, List.mem_cons, mem_last_children tree.size fills other (by omega)]
  constructor
  · intro onPath
    rcases onPath with same | deeper
    · subst same
      exact ⟨Nat.le_refl _, fills⟩
    · exact ⟨Nat.le_of_lt deeper.1, deeper.2⟩
  · intro ends
    obtain ⟨lower, otherFills⟩ := ends
    rcases Nat.eq_or_lt_of_le lower with same | behind
    · exact Or.inl same.symm
    · exact Or.inr ⟨behind, otherFills⟩

end RightmostPath

end Tree

end TreePattern
