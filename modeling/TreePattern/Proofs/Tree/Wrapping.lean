import Mathlib.Order.Monotone.Basic
import TreePattern.Proofs.Tree.Buildable
import TreePattern.Proofs.Tree.Frontier

/-!
# Putting a node into a tree

A new node is put above some consecutive children of a node, or above the root, and takes the index
of the first of them. All nodes from there on are numbered one further. The subtrees of the copies
are the copies of the subtrees, so the ways past the new tree that do not get past the new node
alone are the ways past the old tree.
-/

set_option autoImplicit false

namespace TreePattern

universe u

variable {π : Type u}

namespace Tree

def siblings (tree : Tree π) : Option Nat → List Nat
  | none => [root]
  | some id => tree.childrenOf id

/-- A place for one more node: above `count` consecutive children of a node, or above the root. -/
structure Spot (tree : Tree π) where
  parent : Option Nat
  offset : Nat
  count : Nat
  nonempty : 0 < count
  fits : offset + count ≤ (tree.siblings parent).length

namespace Spot

variable {tree : Tree π} (spot : tree.Spot)

theorem offset_lt : spot.offset < (tree.siblings spot.parent).length := by
  have nonempty := spot.nonempty
  have fits := spot.fits
  omega

def before : List Nat := (tree.siblings spot.parent).take spot.offset

def run : List Nat := ((tree.siblings spot.parent).drop spot.offset).take spot.count

def behind : List Nat := (tree.siblings spot.parent).drop (spot.offset + spot.count)

/-- The first node that goes below the new one, which takes its index. -/
def first : Nat := (tree.siblings spot.parent).get ⟨spot.offset, spot.offset_lt⟩

def shift (id : Nat) : Nat := if id < spot.first then id else id + 1

def parentOfCopy (node : Node π) : Option Nat :=
  if node.parent = spot.parent ∧ spot.offset ≤ node.index ∧
      node.index < spot.offset + spot.count then some spot.first
  else node.parent.map spot.shift

/-- The nodes that go below the new one are counted anew, and those behind them move up. -/
def indexOfCopy (node : Node π) : Nat :=
  if node.parent ≠ spot.parent ∨ node.index < spot.offset then node.index
  else if node.index < spot.offset + spot.count then node.index - spot.offset
  else node.index + 1 - spot.count

def childrenOfCopy (id : Nat) (node : Node π) : List Nat :=
  if spot.parent = some id then
    spot.before.map spot.shift ++ spot.first :: spot.behind.map spot.shift
  else node.children.map spot.shift

def copy (id : Nat) (node : Node π) : Node π :=
  { node with
    parent := spot.parentOfCopy node
    children := spot.childrenOfCopy id node
    index := spot.indexOfCopy node }

/-- The new node, which has no value. -/
def wrapper (symbol : String) (payload : Option π) : Node π where
  symbol := symbol
  parent := spot.parent
  children := spot.run.map spot.shift
  index := spot.offset
  payload := payload

end Spot

def wrap (tree : Tree π) (spot : tree.Spot) (symbol : String) (payload : Option π) : Tree π where
  nodes := ((tree.nodes.toList.mapIdx spot.copy).insertIdx spot.first
    (spot.wrapper symbol payload)).toArray

namespace Spot

variable {tree : Tree π} (spot : tree.Spot) (symbol : String) (payload : Option π)

section Edges

/-- The edge in front of the copy of a node, or of the new node if that comes before the copy. -/
def edge (id : Nat) : Nat := if id ≤ spot.first then id else id + 1

def oldEdge (id : Nat) : Nat := if id ≤ spot.first then id else id - 1

theorem shift_strict_mono : StrictMono spot.shift := by
  intro left right before
  unfold shift
  split <;> split <;> omega

theorem shift_of_lt {id : Nat} (before : id < spot.first) : spot.shift id = id := if_pos before

theorem shift_of_ge {id : Nat} (behind : spot.first ≤ id) : spot.shift id = id + 1 :=
  if_neg (Nat.not_lt_of_le behind)

theorem edge_of_le {id : Nat} (before : id ≤ spot.first) : spot.edge id = id := if_pos before

theorem edge_of_gt {id : Nat} (behind : spot.first < id) : spot.edge id = id + 1 :=
  if_neg (Nat.not_le_of_lt behind)

theorem shift_eq_edge {id : Nat} (other : id ≠ spot.first) : spot.shift id = spot.edge id := by
  unfold shift edge
  split <;> split <;> omega

theorem edge_succ (id : Nat) : spot.edge (id + 1) = spot.shift id + 1 := by
  unfold shift edge
  split <;> split <;> omega

theorem edge_injective : Function.Injective spot.edge := by
  intro left right
  unfold edge
  split <;> split <;> omega

theorem old_edge_edge (id : Nat) : spot.oldEdge (spot.edge id) = id := by
  unfold oldEdge
  rcases Nat.lt_or_ge spot.first id with behind | before
  · rw [spot.edge_of_gt behind, if_neg (by omega), Nat.add_sub_cancel]
  · rw [spot.edge_of_le before, if_pos before]

theorem old_edge_shift (id : Nat) : spot.oldEdge (spot.shift id) = id := by
  unfold shift oldEdge
  split <;> split <;> omega

theorem old_edge_first : spot.oldEdge spot.first = spot.first := if_pos (Nat.le_refl _)

theorem old_edge_first_succ : spot.oldEdge (spot.first + 1) = spot.first :=
  if_neg (Nat.not_succ_le_self _)

theorem old_edge_shift_succ (id : Nat) : spot.oldEdge (spot.shift id + 1) = id + 1 := by
  rw [← edge_succ, old_edge_edge]

theorem eq_first_or_shift (id : Nat) : id = spot.first ∨ ∃ old, spot.shift old = id := by
  rcases Nat.lt_trichotomy id spot.first with before | same | behind
  · exact Or.inr ⟨id, spot.shift_of_lt before⟩
  · exact Or.inl same
  · refine Or.inr ⟨id - 1, ?_⟩
    rw [spot.shift_of_ge (by omega)]
    omega

theorem shift_ne_first (id : Nat) : spot.shift id ≠ spot.first := by
  unfold shift
  split <;> omega

end Edges

section Lookups

theorem get_wrap_shift (id : Nat) :
    (tree.wrap spot symbol payload).get? (spot.shift id) = (tree.get? id).map (spot.copy id) := by
  unfold get? wrap
  rw [List.getElem?_toArray]
  by_cases before : id < spot.first
  · rw [spot.shift_of_lt before, List.getElem?_insertIdx_of_lt before, List.getElem?_mapIdx,
      Array.getElem?_toList]
  · have behind := Nat.le_of_not_lt before
    rw [spot.shift_of_ge behind, List.getElem?_insertIdx_of_gt (by omega), Nat.add_sub_cancel,
      List.getElem?_mapIdx, Array.getElem?_toList]

theorem get_wrap_first (bound : spot.first ≤ tree.size) :
    (tree.wrap spot symbol payload).get? spot.first = some (spot.wrapper symbol payload) := by
  unfold get? wrap
  rw [List.getElem?_toArray, List.getElem?_insertIdx_self, if_pos]
  rw [List.length_mapIdx, Array.length_toList]
  exact bound

theorem size_wrap (bound : spot.first ≤ tree.size) :
    (tree.wrap spot symbol payload).size = tree.size + 1 := by
  unfold size wrap
  rw [List.size_toArray, List.length_insertIdx_of_le_length, List.length_mapIdx,
    Array.length_toList]
  rw [List.length_mapIdx, Array.length_toList]
  exact bound

theorem get_wrap_shift_of_found {id : Nat} {node : Node π} (found : tree.get? id = some node) :
    (tree.wrap spot symbol payload).get? (spot.shift id) = some (spot.copy id node) := by
  rw [get_wrap_shift, found, Option.map_some]

theorem siblings_of_parent {id : Nat} {node : Node π} (up : spot.parent = some id)
    (found : tree.get? id = some node) : tree.siblings spot.parent = node.children := by
  rw [up]
  exact children_of_eq_of_get found

theorem copy_children_eq_nil_iff {id : Nat} {node : Node π} (found : tree.get? id = some node) :
    (spot.copy id node).children = [] ↔ node.children = [] := by
  unfold copy childrenOfCopy
  dsimp only
  split
  · rename_i up
    have inner : node.children ≠ [] := by
      have fits := spot.offset_lt
      rw [spot.siblings_of_parent up found] at fits
      exact List.ne_nil_of_length_pos (Nat.zero_lt_of_lt fits)
    simp only [List.append_eq_nil_iff, reduceCtorEq, and_false, inner]
  · exact List.map_eq_nil_iff

end Lookups

section Parts

theorem siblings_eq : tree.siblings spot.parent = spot.before ++ (spot.run ++ spot.behind) := by
  unfold before run behind
  rw [← List.drop_drop, List.take_append_drop, List.take_append_drop]

theorem length_before : spot.before.length = spot.offset :=
  List.length_take_of_le (Nat.le_of_lt spot.offset_lt)

theorem length_run : spot.run.length = spot.count := by
  have fits := spot.fits
  unfold run
  rw [List.length_take, List.length_drop]
  omega

theorem exists_run : ∃ rest, spot.run = spot.first :: rest := by
  obtain ⟨more, count⟩ := Nat.exists_eq_succ_of_ne_zero (Nat.ne_zero_of_lt spot.nonempty)
  refine ⟨((tree.siblings spot.parent).drop (spot.offset + 1)).take more, ?_⟩
  unfold run first
  rw [List.drop_eq_getElem_cons spot.offset_lt, count, List.take_succ_cons]
  rfl

theorem parts_of_no_parent (up : spot.parent = none) :
    spot.before = [] ∧ spot.first = root ∧ spot.behind = [] := by
  have whole : [root] = spot.before ++ (spot.run ++ spot.behind) := by
    rw [← siblings_eq, up]
    rfl
  obtain ⟨rest, run⟩ := spot.exists_run
  rw [run] at whole
  have count := congrArg List.length whole
  simp only [List.length_append, List.length_cons, List.length_nil] at count
  have noneBefore : spot.before = [] := List.eq_nil_of_length_eq_zero (by omega)
  have noneBehind : spot.behind = [] := List.eq_nil_of_length_eq_zero (by omega)
  rw [noneBefore, List.nil_append, List.cons_append, List.cons.injEq] at whole
  exact ⟨noneBefore, whole.1.symm, noneBehind⟩

variable {start stop : Nat}

/-- The siblings come in three parts, the second of which begins at the spot. -/
theorem exists_parts (spans : tree.Spans spot.parent 0 (tree.siblings spot.parent) start stop) :
    ∃ rest middle, spot.run = spot.first :: rest ∧
      tree.Spans spot.parent 0 spot.before start spot.first ∧
      tree.Spans spot.parent spot.offset (spot.first :: rest) spot.first middle ∧
      tree.Spans spot.parent (spot.offset + spot.count) spot.behind middle stop := by
  rw [siblings_eq] at spans
  obtain ⟨front, before, others⟩ := spans.of_append
  obtain ⟨middle, run, behind⟩ := others.of_append
  rw [length_before, Nat.zero_add] at run behind
  rw [length_run] at behind
  obtain ⟨rest, whole⟩ := spot.exists_run
  rw [whole] at run
  have same := run.cons_fills.1
  subst same
  exact ⟨rest, middle, whole, before, run, behind⟩

theorem exists_siblings (preorder : tree.IsPreorder) :
    ∃ start stop, tree.Spans spot.parent 0 (tree.siblings spot.parent) start stop ∧
      ∀ id, spot.parent = some id → id < start := by
  cases up : spot.parent with
  | none => exact ⟨0, tree.size, preorder, fun _ impossible => nomatch impossible⟩
  | some id =>
      cases found : tree.get? id with
      | none =>
          have fits := spot.offset_lt
          simp only [up, siblings, childrenOf, found, List.length_nil, Nat.not_lt_zero] at fits
      | some node =>
          obtain ⟨stop, ⟨node', found', spans⟩, -⟩ := preorder.fills (lt_size_of_found found)
          rw [found] at found'
          cases found'
          refine ⟨id + 1, stop, ?_, ?_⟩
          · rw [← up, spot.siblings_of_parent up found, up]
            exact spans
          · intro other same
            cases same
            exact Nat.lt_succ_self id

theorem first_lt_size (preorder : tree.IsPreorder) : spot.first < tree.size := by
  obtain ⟨start, stop, spans, -⟩ := spot.exists_siblings preorder
  obtain ⟨rest, middle, -, -, run, -⟩ := spot.exists_parts spans
  obtain ⟨-, last, fills, -⟩ := run.cons_fills
  exact fills.lt_size

theorem first_parent (preorder : tree.IsPreorder) {node : Node π}
    (found : tree.get? spot.first = some node) : node.parent = spot.parent := by
  obtain ⟨start, stop, spans, -⟩ := spot.exists_siblings preorder
  exact (spans.stands (List.getElem?_eq_getElem spot.offset_lt) found).1

theorem parent_map_shift (preorder : tree.IsPreorder) :
    spot.parent.map spot.shift = spot.parent := by
  obtain ⟨start, stop, spans, above⟩ := spot.exists_siblings preorder
  obtain ⟨rest, middle, -, before, -, -⟩ := spot.exists_parts spans
  cases up : spot.parent with
  | none => rfl
  | some id =>
      have begins := before.start_le_stop
      have lower := above id up
      rw [Option.map_some, spot.shift_of_lt (by omega)]

end Parts

section Standing

variable {node : Node π}

theorem stands_other (node : Node π) (other : node.parent ≠ spot.parent) :
    spot.parentOfCopy node = node.parent.map spot.shift ∧ spot.indexOfCopy node = node.index :=
  ⟨if_neg fun taken => other taken.1, if_pos (Or.inl other)⟩

theorem stands_before (up : node.parent = spot.parent) (place : node.index < spot.offset) :
    spot.parentOfCopy node = spot.parent.map spot.shift ∧ spot.indexOfCopy node = node.index := by
  constructor
  · rw [← up]
    exact if_neg (by omega)
  · exact if_pos (Or.inr place)

theorem stands_run (up : node.parent = spot.parent) (lower : spot.offset ≤ node.index)
    (upper : node.index < spot.offset + spot.count) :
    spot.parentOfCopy node = some spot.first ∧
      spot.indexOfCopy node = node.index - spot.offset := by
  constructor
  · exact if_pos ⟨up, lower, upper⟩
  · have inside : ¬ (node.parent ≠ spot.parent ∨ node.index < spot.offset) := by
      rintro (different | early)
      · exact different up
      · omega
    unfold indexOfCopy
    rw [if_neg inside, if_pos upper]

theorem stands_behind (up : node.parent = spot.parent)
    (place : spot.offset + spot.count ≤ node.index) :
    spot.parentOfCopy node = spot.parent.map spot.shift ∧
      spot.indexOfCopy node = node.index + 1 - spot.count := by
  constructor
  · rw [← up]
    exact if_neg (by omega)
  · have inside : ¬ (node.parent ≠ spot.parent ∨ node.index < spot.offset) := by
      rintro (different | early)
      · exact different up
      · omega
    unfold indexOfCopy
    rw [if_neg inside, if_neg (by omega)]

/-- The copies of the nodes say that they are children of `parent`, the first of them at `place`. -/
def Stand (parent : Option Nat) (place : Nat) (ids : List Nat) : Prop :=
  ∀ offset id node, ids[offset]? = some id → tree.get? id = some node →
    spot.parentOfCopy node = parent ∧ spot.indexOfCopy node = place + offset

theorem Stand.tail {spot : tree.Spot} {parent : Option Nat} {place id : Nat} {ids : List Nat}
    (stand : spot.Stand parent place (id :: ids)) : spot.Stand parent (place + 1) ids := by
  intro offset other node listed found
  obtain ⟨up, index⟩ := stand (offset + 1) other node listed found
  exact ⟨up, by omega⟩

variable {start middle stop : Nat}

theorem stand_before (spans : tree.Spans spot.parent 0 spot.before start stop) :
    spot.Stand (spot.parent.map spot.shift) 0 spot.before := by
  intro offset id node listed found
  obtain ⟨up, index⟩ := spans.stands listed found
  have bound := (List.getElem?_eq_some_iff.1 listed).1
  rw [length_before] at bound
  rw [← index]
  exact spot.stands_before up (by omega)

theorem stand_run (spans : tree.Spans spot.parent spot.offset spot.run start stop) :
    spot.Stand (some spot.first) 0 spot.run := by
  intro offset id node listed found
  obtain ⟨up, index⟩ := spans.stands listed found
  have bound := (List.getElem?_eq_some_iff.1 listed).1
  rw [length_run] at bound
  obtain ⟨parent, place⟩ := spot.stands_run up (by omega) (by omega)
  exact ⟨parent, by omega⟩

theorem stand_behind
    (spans : tree.Spans spot.parent (spot.offset + spot.count) spot.behind start stop) :
    spot.Stand (spot.parent.map spot.shift) (spot.offset + 1) spot.behind := by
  intro offset id node listed found
  obtain ⟨up, index⟩ := spans.stands listed found
  obtain ⟨parent, place⟩ := spot.stands_behind up (by omega)
  exact ⟨parent, by omega⟩

theorem stand_other {parent : Option Nat} {ids : List Nat} (other : spot.parent ≠ parent)
    (spans : tree.Spans parent 0 ids start stop) :
    spot.Stand (parent.map spot.shift) 0 ids := by
  intro offset id node listed found
  obtain ⟨up, index⟩ := spans.stands listed found
  rw [← index]
  have elsewhere := spot.stands_other node (up ▸ other.symm)
  rw [up] at elsewhere
  exact elsewhere

end Standing

section Copies

variable {parent newParent : Option Nat} {place newPlace start middle stop : Nat} {ids : List Nat}

def CopiesFills (ids : List Nat) : Prop :=
  ∀ id ∈ ids, ∀ last, tree.Fills id last →
    (tree.wrap spot symbol payload).Fills (spot.shift id) (spot.edge last)

variable {spot symbol payload}

theorem wrap_cons {id : Nat} {node : Node π} (found : tree.get? id = some node)
    (plain : node.value = none ∨ node.children = [])
    (fills : (tree.wrap spot symbol payload).Fills (spot.shift id) middle)
    (stands : spot.parentOfCopy node = newParent ∧ spot.indexOfCopy node = newPlace)
    (others : (tree.wrap spot symbol payload).Spans newParent (newPlace + 1) ids middle stop) :
    (tree.wrap spot symbol payload).Spans newParent newPlace (spot.shift id :: ids)
      (spot.shift id) stop := by
  have copied := spot.get_wrap_shift_of_found symbol payload found
  obtain ⟨copy, same, inner⟩ := fills
  rw [copied] at same
  cases same
  refine .cons copied stands.1 stands.2 ?_ inner others
  rcases plain with noValue | bare
  · exact Or.inl noValue
  · exact Or.inr ((spot.copy_children_eq_nil_iff found).2 bare)

theorem wrap_spans (spans : tree.Spans parent place ids start stop)
    (fills : spot.CopiesFills symbol payload ids) (stand : spot.Stand newParent newPlace ids)
    (elsewhere : spot.first ∉ ids) :
    (tree.wrap spot symbol payload).Spans newParent newPlace (ids.map spot.shift)
      (spot.edge start) (spot.edge stop) := by
  induction spans generalizing newPlace with
  | nil => exact .nil _ _ _
  | @cons parent place id middle stop node rest found above placed plain inner others _ induction =>
      obtain ⟨notFirst, notRest⟩ := List.ne_and_not_mem_of_not_mem_cons elsewhere
      have behind := induction (fun other member => fills other (List.mem_cons_of_mem id member))
        stand.tail notRest
      have copied := fills id List.mem_cons_self middle ⟨node, found, inner⟩
      rw [← spot.shift_eq_edge notFirst.symm]
      exact wrap_cons found plain copied (stand 0 id node rfl found) behind

theorem wrap_run {rest : List Nat}
    (spans : tree.Spans parent place (spot.first :: rest) spot.first stop)
    (fills : spot.CopiesFills symbol payload (spot.first :: rest))
    (stand : spot.Stand newParent newPlace (spot.first :: rest)) :
    (tree.wrap spot symbol payload).Spans newParent newPlace ((spot.first :: rest).map spot.shift)
      (spot.first + 1) (spot.edge stop) := by
  rw [← spot.shift_of_ge (Nat.le_refl _)]
  cases spans with
  | @cons _ _ _ middle _ node _ found above placed plain inner others =>
      have firstFills : tree.Fills spot.first middle := ⟨node, found, inner⟩
      have elsewhere : spot.first ∉ rest := by
        intro member
        have lower := (others.member_fills member).1
        have behind := firstFills.lt_stop
        omega
      have behind := wrap_spans others
        (fun other member => fills other (List.mem_cons_of_mem _ member)) stand.tail elsewhere
      have copied := fills _ List.mem_cons_self middle firstFills
      exact wrap_cons found plain copied (stand 0 _ node rfl found) behind

theorem wrap_siblings (preorder : tree.IsPreorder)
    (spans : tree.Spans spot.parent 0 (tree.siblings spot.parent) start stop)
    (fills : spot.CopiesFills symbol payload (tree.siblings spot.parent)) :
    (tree.wrap spot symbol payload).Spans spot.parent 0
      (spot.before.map spot.shift ++ spot.first :: spot.behind.map spot.shift)
      (spot.edge start) (spot.edge stop) := by
  rw [siblings_eq] at fills
  obtain ⟨rest, middle, whole, before, run, behind⟩ := spot.exists_parts spans
  have runEnds := run.cons_fills
  rw [← whole] at run
  have notBefore : spot.first ∉ spot.before := by
    intro member
    obtain ⟨-, last, firstFills, ends⟩ := before.member_fills member
    have begins := firstFills.lt_stop
    omega
  have notBehind : spot.first ∉ spot.behind := by
    intro member
    obtain ⟨-, last, firstFills, others⟩ := runEnds
    have lower := (behind.member_fills member).1
    have begins := firstFills.lt_stop
    have more := others.start_le_stop
    omega
  have front := wrap_spans before
    (fun id member => fills id (List.mem_append_left _ member)) (spot.stand_before before) notBefore
  have inner := spot.stand_run run
  have rear := wrap_spans behind
    (fun id member => fills id (List.mem_append_right _ (List.mem_append_right _ member)))
    (spot.stand_behind behind) notBehind
  have below : (tree.wrap spot symbol payload).Spans (some spot.first) 0
      (spot.wrapper symbol payload).children (spot.first + 1) (spot.edge middle) := by
    unfold wrapper
    dsimp only
    rw [whole] at run inner ⊢
    apply wrap_run run _ inner
    intro id member
    rw [← whole] at member
    exact fills id (List.mem_append_right _ (List.mem_append_left _ member))
  rw [spot.parent_map_shift preorder] at front rear
  rw [spot.edge_of_le (Nat.le_refl _)] at front
  apply front.append
  rw [List.length_map, length_before, Nat.zero_add]
  have bound := Nat.le_of_lt (spot.first_lt_size preorder)
  exact .cons (spot.get_wrap_first symbol payload bound) rfl rfl (Or.inl rfl) below rear

/-- The subtree of the copy of a node is the copy of the subtree of the node, with the new node if
that is inside. -/
theorem fills_wrap (preorder : tree.IsPreorder) {id : Nat} (fills : tree.Fills id stop) :
    (tree.wrap spot symbol payload).Fills (spot.shift id) (spot.edge stop) := by
  -- Children have larger indices, so there is less behind them.
  induction depth : tree.size - id using Nat.strongRecOn generalizing id stop with
  | ind depth induction =>
      obtain ⟨node, found, spans⟩ := fills
      have bound := lt_size_of_found found
      have below : spot.CopiesFills symbol payload node.children := by
        intro child member last childFills
        have behind := (spans.member_fills member).1
        have inside := childFills.lt_size
        exact induction (tree.size - child) (by omega) childFills rfl
      refine ⟨spot.copy id node, spot.get_wrap_shift_of_found symbol payload found, ?_⟩
      rw [← edge_succ]
      by_cases isParent : spot.parent = some id
      · have siblings := spot.siblings_of_parent isParent found
        have children : (spot.copy id node).children =
            spot.before.map spot.shift ++ spot.first :: spot.behind.map spot.shift :=
          if_pos isParent
        have above := spot.parent_map_shift preorder
        rw [isParent, Option.map_some] at above
        rw [← isParent, ← siblings] at spans
        rw [← siblings] at below
        rw [children, above, ← isParent]
        exact wrap_siblings preorder spans below
      · have children : (spot.copy id node).children = node.children.map spot.shift :=
          if_neg isParent
        rw [children]
        apply wrap_spans spans below (spot.stand_other isParent spans)
        intro member
        obtain ⟨offset, listed⟩ := List.mem_iff_getElem?.1 member
        obtain ⟨first, firstFound⟩ := exists_of_lt_size (spot.first_lt_size preorder)
        have up := (spans.stands listed firstFound).1
        rw [spot.first_parent preorder firstFound] at up
        exact isParent up

/-- With the new node the tree is still numbered in depth-first pre-order. -/
theorem is_preorder_wrap (preorder : tree.IsPreorder) :
    (tree.wrap spot symbol payload).IsPreorder := by
  have inside := spot.first_lt_size preorder
  have copies : spot.CopiesFills symbol payload [root] :=
    fun id _ last fills => fills_wrap preorder fills
  unfold IsPreorder
  rw [spot.size_wrap symbol payload (Nat.le_of_lt inside), ← spot.edge_of_gt inside]
  cases up : spot.parent with
  | none =>
      obtain ⟨noneBefore, isRoot, noneBehind⟩ := spot.parts_of_no_parent up
      have siblings : tree.siblings spot.parent = [root] := by
        rw [up]
        rfl
      have spans : tree.Spans spot.parent 0 (tree.siblings spot.parent) 0 tree.size := by
        rw [siblings, up]
        exact preorder
      have whole := wrap_siblings preorder spans (siblings.symm ▸ copies)
      rw [noneBefore, noneBehind, isRoot, up] at whole
      exact whole
  | some id =>
      obtain ⟨start, stop, spans, above⟩ := spot.exists_siblings preorder
      obtain ⟨-, -, -, before, -, -⟩ := spot.exists_parts spans
      have lower := above id up
      have begins := before.start_le_stop
      have behind : root < spot.first := Nat.lt_of_lt_of_le (Nat.zero_lt_of_lt lower) begins
      have elsewhere : spot.first ∉ [root] := by
        rw [List.mem_singleton]
        exact Nat.ne_of_gt behind
      have other : spot.parent ≠ none := by
        rw [up]
        exact Option.some_ne_none id
      have whole := wrap_spans preorder copies (spot.stand_other other preorder) elsewhere
      rw [List.map_singleton, spot.shift_of_lt behind] at whole
      exact whole

theorem root_of_wrap_value (preorder : tree.IsPreorder) :
    ∃ node, (tree.wrap spot symbol payload).get? root = some node ∧ node.value = none := by
  have inside := spot.first_lt_size preorder
  by_cases isFirst : spot.first = root
  · have new := spot.get_wrap_first symbol payload (Nat.le_of_lt inside)
    rw [isFirst] at new
    exact ⟨_, new, rfl⟩
  · have behind : root < spot.first := Nat.pos_of_ne_zero isFirst
    obtain ⟨node, found, spans⟩ := preorder.root_fills
    have copied := spot.get_wrap_shift_of_found symbol payload found
    rw [spot.shift_of_lt behind] at copied
    refine ⟨_, copied, ?_⟩
    rcases Spans.plain preorder List.mem_cons_self found with noValue | bare
    · exact noValue
    · rw [bare] at spans
      have single := spans.start_eq_of_nil
      omega

/-- With the new node the tree is still one that the library lets its callers make. -/
theorem built_wrap (built : tree.Built) : (tree.wrap spot symbol payload).Built := by
  have preorder := built.is_preorder
  obtain ⟨node, found, noValue⟩ := root_of_wrap_value preorder
  exact (is_preorder_wrap preorder).built found noValue

theorem fills_wrap_iff (preorder : tree.IsPreorder) {id : Nat} (bound : id < tree.size) :
    (tree.wrap spot symbol payload).Fills (spot.shift id) (spot.edge stop) ↔
      tree.Fills id stop := by
  constructor
  · intro copied
    obtain ⟨last, fills, -⟩ := preorder.fills bound
    have same := (fills_wrap preorder fills).stop_unique copied
    rw [← spot.edge_injective same]
    exact fills
  · exact fills_wrap preorder

end Copies

section Ways

variable {spot symbol payload} {start stop : Nat} {nodes : List Nat}

theorem advances_edge_shift (preorder : tree.IsPreorder) (id : Nat) :
    (tree.wrap spot symbol payload).Advances (spot.edge id) [] (spot.shift id) := by
  by_cases isFirst : id = spot.first
  · subst isFirst
    obtain ⟨rest, whole⟩ := spot.exists_run
    have bound := Nat.le_of_lt (spot.first_lt_size preorder)
    have inner : (spot.wrapper symbol payload).children ≠ [] := by
      unfold wrapper
      rw [whole]
      exact List.cons_ne_nil _ _
    rw [spot.edge_of_le (Nat.le_refl _), spot.shift_of_ge (Nat.le_refl _)]
    exact .down (spot.get_wrap_first symbol payload bound) inner (.refl _)
  · rw [spot.shift_eq_edge isFirst]
    exact .refl _

/-- Every way past nodes of the old tree is a way past their copies. -/
theorem advances_wrap (preorder : tree.IsPreorder) (advances : tree.Advances start nodes stop) :
    (tree.wrap spot symbol payload).Advances (spot.edge start) (nodes.map spot.shift)
      (spot.edge stop) := by
  induction advances with
  | refl => exact .refl _
  | @down id stop node nodes found inner rest induction =>
      have copied := spot.get_wrap_shift_of_found symbol payload found
      have copiedInner : (spot.copy id node).children ≠ [] :=
        fun bare => inner ((spot.copy_children_eq_nil_iff found).1 bare)
      rw [edge_succ] at induction
      exact (advances_edge_shift preorder id).append (.down copied copiedInner induction)
  | @past id middle stop nodes fills rest induction =>
      exact (advances_edge_shift preorder id).append (.past (fills_wrap preorder fills) induction)

/-- Every way that does not get past the new node alone comes from a way past nodes of the old
tree. -/
theorem exists_advances_of_wrap (preorder : tree.IsPreorder)
    (advances : (tree.wrap spot symbol payload).Advances start nodes stop)
    (elsewhere : spot.first ∉ nodes) :
    ∃ old, old.map spot.shift = nodes ∧
      tree.Advances (spot.oldEdge start) old (spot.oldEdge stop) := by
  have bound := Nat.le_of_lt (spot.first_lt_size preorder)
  induction advances with
  | refl => exact ⟨[], rfl, .refl _⟩
  | @down id stop node nodes found inner rest induction =>
      obtain ⟨old, same, onward⟩ := induction elsewhere
      refine ⟨old, same, ?_⟩
      rcases spot.eq_first_or_shift id with isFirst | isCopy
      · subst isFirst
        rw [old_edge_first]
        rw [old_edge_first_succ] at onward
        exact onward
      · obtain ⟨origin, rfl⟩ := isCopy
        rw [get_wrap_shift, Option.map_eq_some_iff] at found
        obtain ⟨original, originalFound, rfl⟩ := found
        rw [ne_eq, spot.copy_children_eq_nil_iff originalFound] at inner
        rw [old_edge_shift_succ] at onward
        rw [old_edge_shift]
        exact .down originalFound inner onward
  | @past id middle stop nodes fills rest induction =>
      obtain ⟨notId, notRest⟩ := List.ne_and_not_mem_of_not_mem_cons elsewhere
      obtain ⟨old, rfl, onward⟩ := induction notRest
      rcases spot.eq_first_or_shift id with isFirst | isCopy
      · exact absurd isFirst.symm notId
      · obtain ⟨origin, rfl⟩ := isCopy
        obtain ⟨copy, found, inner⟩ := fills
        obtain ⟨original, originalFound, -⟩ :=
          Option.map_eq_some_iff.1 ((spot.get_wrap_shift symbol payload origin).symm.trans found)
        obtain ⟨last, oldFills, -⟩ := preorder.fills (lt_size_of_found originalFound)
        have same := (fills_wrap preorder oldFills).stop_unique ⟨copy, found, inner⟩
        rw [← same, old_edge_edge] at onward
        rw [old_edge_shift]
        exact ⟨origin :: old, rfl, .past oldFills onward⟩

end Ways

end Spot

end Tree

end TreePattern
