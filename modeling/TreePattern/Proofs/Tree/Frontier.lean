import TreePattern.Proofs.Tree.Standing
import TreePattern.Tree.Cut

/-!
# Cuts as advances along the indices

Between any two neighbouring indices there is an edge. From the edge in front of a node one gets
past its whole subtree at once, or down in front of its first child. The nodes that one gets past on
the way from the first edge of the tree to the last are a cut of the root, and every cut is such a
way. The last move to the edge in front of a node can be told from where the node stands.
-/

set_option autoImplicit false

namespace TreePattern

universe u

variable {π : Type u}

namespace Tree

/-- From the edge in front of `start` one gets to the edge in front of `stop` past `nodes`. -/
inductive Advances (tree : Tree π) : Nat → List Nat → Nat → Prop where
  | refl (edge : Nat) : Advances tree edge [] edge
  | down {id stop : Nat} {node : Node π} {nodes : List Nat} (found : tree.get? id = some node)
      (inner : node.children ≠ []) (rest : Advances tree (id + 1) nodes stop) :
      Advances tree id nodes stop
  | past {id middle stop : Nat} {nodes : List Nat} (fills : tree.Fills id middle)
      (rest : Advances tree middle nodes stop) : Advances tree id (id :: nodes) stop

/-- A left-to-right sequence of nodes, none an ancestor of another, that covers all leaves. -/
structure Frontier (tree : Tree π) (nodes : List Nat) : Prop where
  known : ∀ id ∈ nodes, id < tree.size
  increasing : nodes.Pairwise (· < ·)
  apart : ∀ top ∈ nodes, ∀ id ∈ nodes, tree.Below top id → id = top
  covers : ∀ (leaf : Nat) (node : Node π), tree.get? leaf = some node → node.isLeaf = true →
    ∃ top ∈ nodes, tree.Below top leaf

variable {tree : Tree π} {start stop : Nat} {nodes : List Nat}

namespace Advances

theorem append (first : tree.Advances start nodes stop) {last : Nat} {more : List Nat}
    (second : tree.Advances stop more last) : tree.Advances start (nodes ++ more) last := by
  induction first with
  | refl => exact second
  | down found inner _ induction => exact .down found inner (induction second)
  | past fills _ induction => exact .past fills (induction second)

theorem start_le_stop (advances : tree.Advances start nodes stop) : start ≤ stop := by
  induction advances with
  | refl => exact Nat.le_refl _
  | down _ _ _ bound => omega
  | past fills _ bound =>
      have behind := fills.lt_stop
      omega

theorem member_fills (advances : tree.Advances start nodes stop) {id : Nat} (member : id ∈ nodes) :
    start ≤ id ∧ ∃ last, tree.Fills id last ∧ last ≤ stop := by
  induction advances with
  | refl => cases member
  | down _ _ _ induction =>
      obtain ⟨lower, ends⟩ := induction member
      exact ⟨by omega, ends⟩
  | past fills rest induction =>
      have behind := fills.lt_stop
      rcases List.mem_cons.1 member with same | later
      · subst same
        exact ⟨Nat.le_refl _, _, fills, rest.start_le_stop⟩
      · obtain ⟨lower, ends⟩ := induction later
        exact ⟨by omega, ends⟩

theorem members_known (advances : tree.Advances start nodes stop) :
    ∀ id ∈ nodes, id < tree.size := by
  intro id member
  obtain ⟨-, last, fills, -⟩ := advances.member_fills member
  exact fills.lt_size

theorem increasing (advances : tree.Advances start nodes stop) : nodes.Pairwise (· < ·) := by
  induction advances with
  | refl => exact .nil
  | down _ _ _ induction => exact induction
  | past fills rest induction =>
      apply List.Pairwise.cons
      · intro id member
        have behind := fills.lt_stop
        have lower := (rest.member_fills member).1
        omega
      · exact induction

theorem ends_before (advances : tree.Advances start nodes stop) {first second last : Nat}
    (member : first ∈ nodes) (other : second ∈ nodes) (before : first < second)
    (firstFills : tree.Fills first last) : last ≤ second := by
  induction advances with
  | refl => cases member
  | down _ _ _ induction => exact induction member other
  | @past id middle stop rest fills advances induction =>
      have behind := fills.lt_stop
      rcases List.mem_cons.1 other with otherSame | otherLater
      · rcases List.mem_cons.1 member with same | later
        · omega
        · have lower := (advances.member_fills later).1
          omega
      · rcases List.mem_cons.1 member with same | later
        · subst same
          rw [firstFills.stop_unique fills]
          exact (advances.member_fills otherLater).1
        · exact induction later otherLater

theorem split_member {earlier later : List Nat} {id : Nat}
    (advances : tree.Advances start (earlier ++ id :: later) stop) :
    tree.Advances start earlier id ∧
      ∃ middle, tree.Fills id middle ∧ tree.Advances middle later stop := by
  generalize whole : earlier ++ id :: later = nodes at advances
  induction advances generalizing earlier with
  | refl => simp at whole
  | down found inner _ induction =>
      obtain ⟨before, behind⟩ := induction whole
      exact ⟨.down found inner before, behind⟩
  | @past first middle stop rest fills advances induction =>
      cases earlier with
      | nil =>
          rw [List.nil_append, List.cons.injEq] at whole
          obtain ⟨same, others⟩ := whole
          subst same others
          exact ⟨.refl id, middle, fills, advances⟩
      | cons head earlier =>
          rw [List.cons_append, List.cons.injEq] at whole
          obtain ⟨same, others⟩ := whole
          subst same
          obtain ⟨before, behind⟩ := induction others
          exact ⟨.past fills before, behind⟩

theorem leaf_covered (advances : tree.Advances start nodes stop) {leaf : Nat} {node : Node π}
    (lower : start ≤ leaf) (upper : leaf < stop) (found : tree.get? leaf = some node)
    (bare : node.children = []) :
    ∃ top ∈ nodes, ∃ last, tree.Fills top last ∧ top ≤ leaf ∧ leaf < last := by
  induction advances with
  | refl => omega
  | @down id stop opened rest openedFound inner advances induction =>
      have notLeaf : id ≠ leaf := by
        intro same
        subst same
        rw [openedFound] at found
        cases found
        exact inner bare
      exact induction (by omega) upper
  | @past id middle stop rest fills advances induction =>
      by_cases within : leaf < middle
      · exact ⟨id, List.mem_cons_self, middle, fills, lower, within⟩
      · obtain ⟨top, member, covered⟩ := induction (by omega) upper
        exact ⟨top, List.mem_cons_of_mem id member, covered⟩

theorem last_move (advances : tree.Advances start nodes stop) :
    (start = stop ∧ nodes = []) ∨
      (∃ id node, stop = id + 1 ∧ tree.get? id = some node ∧ node.children ≠ [] ∧
        tree.Advances start nodes id) ∨
      ∃ earlier id, nodes = earlier ++ [id] ∧ tree.Advances start earlier id ∧
        tree.Fills id stop := by
  induction advances with
  | refl => exact Or.inl ⟨rfl, rfl⟩
  | @down id stop node nodes found inner rest induction =>
      rcases induction with still | fromNode | fromSubtree
      · obtain ⟨same, blank⟩ := still
        subst blank
        exact Or.inr (Or.inl ⟨id, node, same.symm, found, inner, .refl id⟩)
      · obtain ⟨last, lastNode, ends, lastFound, lastInner, before⟩ := fromNode
        exact Or.inr (Or.inl ⟨last, lastNode, ends, lastFound, lastInner,
          .down found inner before⟩)
      · obtain ⟨earlier, last, whole, before, fills⟩ := fromSubtree
        exact Or.inr (Or.inr ⟨earlier, last, whole, .down found inner before, fills⟩)
  | @past id middle stop nodes fills rest induction =>
      rcases induction with still | fromNode | fromSubtree
      · obtain ⟨same, blank⟩ := still
        subst same blank
        exact Or.inr (Or.inr ⟨[], id, rfl, .refl id, fills⟩)
      · obtain ⟨last, lastNode, ends, lastFound, lastInner, before⟩ := fromNode
        exact Or.inr (Or.inl ⟨last, lastNode, ends, lastFound, lastInner, .past fills before⟩)
      · obtain ⟨earlier, last, whole, before, lastFills⟩ := fromSubtree
        subst whole
        exact Or.inr (Or.inr ⟨id :: earlier, last, rfl, .past fills before, lastFills⟩)

end Advances

section Cuts

mutual

theorem Cut.advances {id last : Nat} {ids : List Nat} :
    tree.Cut id ids → tree.Fills id last → tree.Advances id ids last
  | .here _, fills => .past fills (.refl last)
  | .inside found inner parts, fills => by
      obtain ⟨node', found', spans⟩ := fills
      rw [found] at found'
      cases found'
      exact .down found inner (parts.advances spans)

theorem Cuts.advances {parent : Option Nat} {place first last : Nat} {children ids : List Nat} :
    tree.Cuts children ids → tree.Spans parent place children first last →
      tree.Advances first ids last
  | .nil, spans => by
      have same := spans.start_eq_of_nil
      subst same
      exact .refl first
  | .cons part parts, spans => by
      obtain ⟨same, middle, fills, others⟩ := spans.cons_fills
      rw [same]
      exact (part.advances fills).append (parts.advances others)

end

theorem Spans.split_advance {parent : Option Nat} {place : Nat} {ids : List Nat}
    (spans : tree.Spans parent place ids start stop)
    (advances : tree.Advances start nodes tree.size) :
    ∃ parts later, nodes = parts ++ later ∧ tree.Cuts ids parts ∧
      tree.Advances stop later tree.size := by
  induction spans generalizing nodes with
  | nil => exact ⟨[], nodes, rfl, .nil, advances⟩
  | @cons parent place id middle stop node rest found above placed plain inner others
      innerSplits othersSplit =>
      have first : ∃ parts later, nodes = parts ++ later ∧ tree.Cut id parts ∧
          tree.Advances middle later tree.size := by
        cases advances with
        | refl =>
            exact absurd (lt_size_of_found found) (Nat.lt_irrefl _)
        | down found' opened advances =>
            rw [found] at found'
            cases found'
            obtain ⟨parts, later, whole, cuts, onward⟩ := innerSplits advances
            exact ⟨parts, later, whole, .inside found opened cuts, onward⟩
        | @past _ reached _ later fills advances =>
            have same := fills.stop_unique ⟨node, found, inner⟩
            subst same
            exact ⟨[id], later, rfl, .here id, advances⟩
      obtain ⟨parts, later, whole, cut, onward⟩ := first
      obtain ⟨others, last, laterWhole, cuts, finished⟩ := othersSplit onward
      rw [whole, laterWhole, ← List.append_assoc]
      exact ⟨parts ++ others, last, rfl, .cons cut cuts, finished⟩

end Cuts

namespace IsPreorder

/-- The cuts of the root are the ways past the whole tree. -/
theorem cut_iff (ordered : tree.IsPreorder) (nodes : List Nat) :
    tree.Cut root nodes ↔ tree.Advances 0 nodes tree.size := by
  constructor
  · intro cut
    exact cut.advances ordered.root_fills
  · intro advances
    obtain ⟨parts, later, whole, cuts, finished⟩ := Spans.split_advance ordered advances
    have nothing : later = [] := by
      cases finished with
      | refl => rfl
      | down found =>
          exact absurd (lt_size_of_found found) (Nat.lt_irrefl _)
      | past fills =>
          exact absurd fills.lt_size (Nat.lt_irrefl _)
    subst nothing
    rw [List.append_nil] at whole
    subst whole
    cases cuts with
    | cons part parts =>
        cases parts
        rw [List.append_nil]
        exact part

theorem cut_frontier (ordered : tree.IsPreorder) (cut : tree.Cut root nodes) :
    tree.Frontier nodes := by
  have advances := (ordered.cut_iff nodes).1 cut
  refine ⟨advances.members_known, advances.increasing, ?_, ?_⟩
  · intro top member id other below
    obtain ⟨-, last, fills, -⟩ := advances.member_fills member
    obtain ⟨lower, upper⟩ := (ordered.below_iff fills id).1 below
    rcases Nat.eq_or_lt_of_le lower with same | behind
    · exact same.symm
    · have ends := advances.ends_before member other behind fills
      omega
  · intro leaf node found bare
    have bound := lt_size_of_found found
    obtain ⟨top, member, last, fills, inside⟩ :=
      advances.leaf_covered (Nat.zero_le leaf) bound found (List.isEmpty_iff.1 bare)
    exact ⟨top, member, (ordered.below_iff fills leaf).2 inside⟩

end IsPreorder

section LastMove

theorem advances_root_iff (nodes : List Nat) : tree.Advances 0 nodes root ↔ nodes = [] := by
  constructor
  · intro advances
    rcases advances.last_move with still | fromNode | fromSubtree
    · exact still.2
    · obtain ⟨id, -, ends, -⟩ := fromNode
      exact absurd ends (Nat.zero_ne_add_one id)
    · obtain ⟨-, id, -, -, fills⟩ := fromSubtree
      exact absurd fills.lt_stop (Nat.not_lt_zero id)
  · intro blank
    subst blank
    exact .refl 0

theorem IsPreorder.advances_first_child_iff (ordered : tree.IsPreorder) {id : Nat} {node : Node π}
    (found : tree.get? id = some node) (inner : node.children ≠ []) (nodes : List Nat) :
    tree.Advances 0 nodes (id + 1) ↔ tree.Advances 0 nodes id := by
  constructor
  · intro advances
    rcases advances.last_move with still | fromNode | fromSubtree
    · omega
    · obtain ⟨last, -, ends, -, -, before⟩ := fromNode
      rw [Nat.succ.inj ends]
      exact before
    · obtain ⟨earlier, last, -, -, fills⟩ := fromSubtree
      exact absurd (ordered.leaf_before_stop fills found) inner
  · intro advances
    have down : tree.Advances id [] (id + 1) := .down found inner (.refl _)
    simpa only [List.append_nil] using advances.append down

theorem IsPreorder.advances_stop_iff {sibling : Nat} (ordered : tree.IsPreorder)
    (fills : tree.Fills sibling stop) (nodes : List Nat) :
    tree.Advances 0 nodes stop ↔
      ∃ earlier id, nodes = earlier ++ [id] ∧ tree.Advances 0 earlier id ∧ tree.Fills id stop := by
  constructor
  · intro advances
    rcases advances.last_move with still | fromNode | fromSubtree
    · have behind := fills.lt_stop
      omega
    · obtain ⟨last, node, ends, found, inner, -⟩ := fromNode
      subst ends
      exact absurd (ordered.leaf_before_stop fills found) inner
    · exact fromSubtree
  · intro reached
    obtain ⟨earlier, id, whole, before, idFills⟩ := reached
    rw [whole]
    exact before.append (.past idFills (.refl stop))

theorem IsPreorder.split_last {sibling id : Nat} {earlier : List Nat} (ordered : tree.IsPreorder)
    (fills : tree.Fills sibling stop) (advances : tree.Advances 0 (earlier ++ [id]) stop) :
    tree.Advances 0 earlier id ∧ tree.Fills id stop := by
  obtain ⟨others, last, whole, before, lastFills⟩ :=
    (ordered.advances_stop_iff fills _).1 advances
  obtain ⟨sameEarlier, sameLast⟩ := List.append_inj' whole rfl
  cases sameLast
  rw [sameEarlier]
  exact ⟨before, lastFills⟩

end LastMove

end Tree

end TreePattern
