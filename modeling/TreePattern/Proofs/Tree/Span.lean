import TreePattern.Tree.Basic

/-!
# Subtrees as spans of indices

Nodes numbered in depth-first pre-order make every subtree a span: a node is followed by the spans
of its children, one after the other, and nothing else. Two subtrees are therefore nested or apart,
and each index inside a span begins a span of its own.
-/

set_option autoImplicit false

namespace TreePattern

universe u

variable {π : Type u}

namespace Tree

/-- The nodes `ids` are consecutive children of `parent`, the first of them at `place`, and their
subtrees are the indices from `start` up to `stop`, in order. -/
inductive Spans (tree : Tree π) : Option Nat → Nat → List Nat → Nat → Nat → Prop where
  | nil (parent : Option Nat) (place start : Nat) : Spans tree parent place [] start start
  | cons {parent : Option Nat} {place id middle stop : Nat} {node : Node π} {rest : List Nat}
      (found : tree.get? id = some node) (above : node.parent = parent)
      (placed : node.index = place) (plain : node.value = none ∨ node.children = [])
      (inner : Spans tree (some id) 0 node.children (id + 1) middle)
      (others : Spans tree parent (place + 1) rest middle stop) :
      Spans tree parent place (id :: rest) id stop

def IsPreorder (tree : Tree π) : Prop := tree.Spans none 0 [root] 0 tree.size

/-- The subtree of `id` is the indices from `id` up to `stop`. -/
def Fills (tree : Tree π) (id stop : Nat) : Prop :=
  ∃ node, tree.get? id = some node ∧ tree.Spans (some id) 0 node.children (id + 1) stop

variable {tree : Tree π} {parent : Option Nat} {place start stop : Nat} {ids : List Nat}

theorem exists_of_lt_size {id : Nat} (bound : id < tree.size) :
    ∃ node, tree.get? id = some node :=
  ⟨tree.nodes[id], Array.getElem?_eq_getElem bound⟩

theorem lt_size_of_found {id : Nat} {node : Node π} (found : tree.get? id = some node) :
    id < tree.size :=
  (Array.getElem?_eq_some_iff.1 found).1

namespace Spans

theorem start_le_stop (spans : tree.Spans parent place ids start stop) : start ≤ stop := by
  induction spans with
  | nil => exact Nat.le_refl _
  | cons _ _ _ _ _ _ inner others => omega

theorem stop_unique (spans : tree.Spans parent place ids start stop) {other : Nat}
    (again : tree.Spans parent place ids start other) : stop = other := by
  induction spans generalizing other with
  | nil =>
      cases again
      rfl
  | cons found above placed plain inner others innerUnique othersUnique =>
      cases again with
      | cons found' _ _ _ inner' others' =>
          rw [found] at found'
          cases found'
          have same := innerUnique inner'
          subst same
          exact othersUnique others'

theorem start_eq_of_nil (spans : tree.Spans parent place [] start stop) : start = stop := by
  cases spans
  rfl

theorem cons_fills {id : Nat} {rest : List Nat}
    (spans : tree.Spans parent place (id :: rest) start stop) :
    start = id ∧ ∃ middle, tree.Fills id middle ∧
      tree.Spans parent (place + 1) rest middle stop := by
  cases spans with
  | cons found _ _ _ inner others => exact ⟨rfl, _, ⟨_, found, inner⟩, others⟩

end Spans

namespace Fills

variable {id : Nat}

theorem lt_stop (fills : tree.Fills id stop) : id < stop := by
  obtain ⟨node, found, inner⟩ := fills
  have later := inner.start_le_stop
  omega

theorem stop_unique (fills : tree.Fills id stop) {other : Nat} (again : tree.Fills id other) :
    stop = other := by
  obtain ⟨node, found, inner⟩ := fills
  obtain ⟨node', found', inner'⟩ := again
  rw [found] at found'
  cases found'
  exact inner.stop_unique inner'

theorem lt_size (fills : tree.Fills id stop) : id < tree.size := by
  obtain ⟨node, found, -⟩ := fills
  exact lt_size_of_found found

theorem inner_stop (fills : tree.Fills id stop) {node : Node π} (found : tree.get? id = some node)
    (inner : node.children ≠ []) : id + 1 < stop := by
  obtain ⟨node', found', spans⟩ := fills
  rw [found] at found'
  cases found'
  obtain ⟨child, rest, whole⟩ := List.exists_cons_of_ne_nil inner
  rw [whole] at spans
  obtain ⟨first, middle, childFills, others⟩ := spans.cons_fills
  have below := childFills.lt_stop
  have later := others.start_le_stop
  omega

end Fills

namespace Spans

/-- Each index of a span begins the subtree of a node, which ends inside the span. -/
theorem fills_inside (spans : tree.Spans parent place ids start stop) {id : Nat}
    (lower : start ≤ id) (upper : id < stop) : ∃ last, tree.Fills id last ∧ last ≤ stop := by
  induction spans with
  | nil => omega
  | @cons parent place first middle stop node rest found above placed plain inner others
      innerFills othersFills =>
      have bound := others.start_le_stop
      by_cases isFirst : id = first
      · subst isFirst
        exact ⟨middle, ⟨node, found, inner⟩, bound⟩
      · by_cases within : id < middle
        · obtain ⟨last, fills, ends⟩ := innerFills (by omega) within
          exact ⟨last, fills, by omega⟩
        · exact othersFills (by omega) upper

theorem member_fills (spans : tree.Spans parent place ids start stop) {id : Nat}
    (member : id ∈ ids) : start ≤ id ∧ ∃ last, tree.Fills id last ∧ last ≤ stop := by
  induction spans with
  | nil => cases member
  | @cons parent place first middle stop node rest found above placed plain inner others
      innerFills othersFills =>
      have bound := others.start_le_stop
      have before := inner.start_le_stop
      rcases List.mem_cons.1 member with isFirst | later
      · subst isFirst
        exact ⟨Nat.le_refl _, middle, ⟨node, found, inner⟩, bound⟩
      · obtain ⟨lower, last, fills, ends⟩ := othersFills later
        exact ⟨by omega, last, fills, ends⟩

end Spans

namespace Fills

variable {outer inner outerStop innerStop : Nat}

theorem inside (fills : tree.Fills outer outerStop) (lower : outer ≤ inner)
    (upper : inner < outerStop) : ∃ last, tree.Fills inner last ∧ last ≤ outerStop := by
  rcases Nat.eq_or_lt_of_le lower with same | below
  · subst same
    exact ⟨outerStop, fills, Nat.le_refl _⟩
  · obtain ⟨node, found, spans⟩ := fills
    exact spans.fills_inside below upper

theorem nested (fills : tree.Fills outer outerStop) (lower : outer ≤ inner)
    (upper : inner < outerStop) (innerFills : tree.Fills inner innerStop) :
    innerStop ≤ outerStop := by
  obtain ⟨last, again, ends⟩ := fills.inside lower upper
  rw [innerFills.stop_unique again]
  exact ends

end Fills

theorem Spans.ends_before_member (spans : tree.Spans parent place ids start stop) {child id : Nat}
    (member : child ∈ ids) (lower : start ≤ id) (upper : id < child) {last : Nat}
    (fills : tree.Fills id last) : last ≤ child := by
  induction spans with
  | nil => cases member
  | @cons parent place first middle stop node rest found above placed plain inner others
      innerEnds othersEnds =>
      rcases List.mem_cons.1 member with isFirst | later
      · omega
      · have behind := (others.member_fills later).1
        by_cases within : id < middle
        · have firstFills : tree.Fills first middle := ⟨node, found, inner⟩
          have ends := firstFills.nested lower within fills
          omega
        · exact othersEnds later (by omega)

theorem Spans.append (spans : tree.Spans parent place ids start stop) {more : List Nat} {last : Nat}
    (others : tree.Spans parent (place + ids.length) more stop last) :
    tree.Spans parent place (ids ++ more) start last := by
  induction spans with
  | nil => simpa using others
  | @cons parent place first middle stop node rest found above placed plain inner _ _ append =>
      apply Spans.cons found above placed plain inner
      apply append
      have sum : place + 1 + rest.length = place + (first :: rest).length := by
        simp only [List.length_cons]
        omega
      rw [sum]
      exact others

theorem Spans.of_append {more : List Nat}
    (spans : tree.Spans parent place (ids ++ more) start stop) :
    ∃ middle, tree.Spans parent place ids start middle ∧
      tree.Spans parent (place + ids.length) more middle stop := by
  induction ids generalizing place start with
  | nil => exact ⟨start, .nil _ _ _, spans⟩
  | cons id rest induction =>
      rw [List.cons_append] at spans
      cases spans with
      | cons found above placed plain inner others =>
          obtain ⟨middle, front, behind⟩ := induction others
          refine ⟨middle, .cons found above placed plain inner front, ?_⟩
          have sum : place + (id :: rest).length = place + 1 + rest.length := by
            simp only [List.length_cons]
            omega
          rw [sum]
          exact behind

theorem Spans.stands (spans : tree.Spans parent place ids start stop) {offset id : Nat}
    {node : Node π} (listed : ids[offset]? = some id) (found : tree.get? id = some node) :
    node.parent = parent ∧ node.index = place + offset := by
  induction spans generalizing offset with
  | nil => cases listed
  | @cons parent place first middle stop firstNode rest firstFound above placed plain inner others
      _ othersStand =>
      cases offset with
      | zero =>
          cases listed
          rw [firstFound] at found
          cases found
          exact ⟨above, placed⟩
      | succ offset =>
          obtain ⟨up, index⟩ := othersStand listed
          exact ⟨up, by omega⟩

theorem Spans.plain (spans : tree.Spans parent place ids start stop) {id : Nat} {node : Node π}
    (member : id ∈ ids) (found : tree.get? id = some node) :
    node.value = none ∨ node.children = [] := by
  induction spans with
  | nil => cases member
  | @cons parent place first middle stop firstNode rest firstFound above placed plain inner others
      _ othersPlain =>
      rcases List.mem_cons.1 member with isFirst | later
      · subst isFirst
        rw [firstFound] at found
        cases found
        exact plain
      · exact othersPlain later

section Consecutive

theorem Spans.first_child (spans : tree.Spans parent place ids start stop) {id : Nat}
    (first : ids[0]? = some id) : id = start := by
  cases spans with
  | nil => cases first
  | cons => exact (Option.some.inj first).symm

theorem Spans.adjacent (spans : tree.Spans parent place ids start stop) {offset left right : Nat}
    (before : ids[offset]? = some left) (after : ids[offset + 1]? = some right) :
    tree.Fills left right := by
  induction spans generalizing offset with
  | nil => cases before
  | @cons parent place first middle stop node rest found above placed plain inner others
      _ othersAdjacent =>
      cases offset with
      | zero =>
          have second : rest[0]? = some right := by simpa using after
          have same := others.first_child second
          have isFirst : first = left := by simpa using before
          subst isFirst same
          exact ⟨node, found, inner⟩
      | succ offset => exact othersAdjacent (by simpa using before) (by simpa using after)

theorem Spans.last_child (spans : tree.Spans parent place ids start stop) {id : Nat}
    (last : ids.getLast? = some id) : tree.Fills id stop := by
  induction spans with
  | nil => cases last
  | @cons parent place first middle stop node rest found above placed plain inner others
      _ othersLast =>
      cases rest with
      | nil =>
          have isFirst : first = id := by simpa using last
          have ends := others.start_eq_of_nil
          subst isFirst ends
          exact ⟨node, found, inner⟩
      | cons next rest => exact othersLast (by simpa using last)

end Consecutive

namespace IsPreorder

variable {id : Nat}

theorem root_fills (ordered : tree.IsPreorder) : tree.Fills root tree.size := by
  obtain ⟨-, middle, fills, others⟩ := Spans.cons_fills ordered
  have ends := others.start_eq_of_nil
  subst ends
  exact fills

theorem fills (ordered : tree.IsPreorder) (bound : id < tree.size) :
    ∃ stop, tree.Fills id stop ∧ stop ≤ tree.size :=
  Spans.fills_inside ordered (Nat.zero_le id) bound

theorem leaf_before_stop (ordered : tree.IsPreorder) {last : Nat} {node : Node π}
    (fills : tree.Fills id (last + 1)) (found : tree.get? last = some node) :
    node.children = [] := by
  apply Classical.byContradiction
  intro inner
  obtain ⟨stop, lastFills, -⟩ := ordered.fills (lt_size_of_found found)
  have wide := lastFills.inner_stop found inner
  have begins := fills.lt_stop
  have ends := fills.nested (by omega) (by omega) lastFills
  omega

end IsPreorder

end Tree

end TreePattern
