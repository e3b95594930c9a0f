import TreePattern.Proofs.Tree.Arena
import TreePattern.Proofs.Tree.Built
import TreePattern.Proofs.Tree.OpenNodes

/-!
# Walks stay well nested under pruning

What is pending in a walk are the leavings of the open nodes, and in front of each of them the last
of that node's children, as many as were neither entered nor pruned. Both calls on a walk keep this
shape. Since the subtrees of waiting nodes are apart and behind all nodes entered so far, the
reports are well nested and each node is entered at most once, wherever the walk is pruned.
-/

set_option autoImplicit false

namespace TreePattern

universe u

variable {π : Type u}

namespace Tree

def parentOf? (tree : Tree π) (id : Nat) : Option Nat := (tree.get? id).bind (·.parent)

end Tree

namespace Walk

/-- The node may be entered while the given nodes are open: it is a child of the innermost one, or
the top of the walk. -/
def EntersUnder (tree : Tree π) (top : Nat) (opened : List Nat) (id : Nat) : Prop :=
  match opened with
  | [] => id = top
  | inner :: _ => tree.parentOf? id = some inner

/-- What is pending while the given nodes are open. In front of each leaving stand some of the last
children of the node to be left. -/
inductive Waits (tree : Tree π) (top : Nat) : List Nat → List Event → Prop where
  | outside {waiting : List Nat} (suffix : waiting <:+ [top]) :
      Waits tree top [] (waiting.map .enter)
  | inside {id : Nat} {opened waiting : List Nat} {pending : List Event}
      (under : EntersUnder tree top opened id) (suffix : waiting <:+ tree.childrenOf id)
      (outer : Waits tree top opened pending) :
      Waits tree top (id :: opened) (waiting.map .enter ++ .leave id :: pending)

variable {tree : Tree π} {top : Nat}

section Shape

variable {id : Nat} {opened : List Nat} {pending rest : List Event}

theorem filter_left_enter (ids : List Nat) (rest : List Event) :
    (ids.map Event.enter ++ rest).filterMap Event.left? = rest.filterMap Event.left? := by
  induction ids with
  | nil => rfl
  | cons id ids induction => exact induction

theorem filter_entered_enter (ids : List Nat) (rest : List Event) :
    (ids.map Event.enter ++ rest).filterMap Event.entered? =
      ids ++ rest.filterMap Event.entered? := by
  induction ids with
  | nil => rfl
  | cons id ids induction =>
      simp only [List.map_cons, List.cons_append, List.filterMap_cons, Event.entered?, induction]

theorem drop_while_enter (ids : List Nat) (rest : List Event) :
    (ids.map Event.enter ++ rest).dropWhile (·.entered?.isSome) =
      rest.dropWhile (·.entered?.isSome) := by
  induction ids with
  | nil => rfl
  | cons id ids induction => exact induction

/-- The open nodes are told by the leavings that are pending. -/
theorem Waits.opened_eq (waits : Waits tree top opened pending) :
    pending.filterMap Event.left? = opened := by
  induction waits with
  | @outside waiting suffix => simpa using filter_left_enter waiting []
  | @inside id opened waiting pending under suffix outer openedEq =>
      rw [filter_left_enter, List.filterMap_cons, Event.left?, openedEq]

theorem Waits.prune (waits : Waits tree top opened pending) :
    Waits tree top opened (pending.dropWhile (·.entered?.isSome)) := by
  cases waits with
  | @outside waiting suffix =>
      have nothing := drop_while_enter waiting []
      rw [List.append_nil] at nothing
      rw [nothing]
      exact .outside List.nil_suffix
  | @inside id opened waiting pending under suffix outer =>
      rw [drop_while_enter]
      change Waits tree top (id :: opened) ([].map .enter ++ .leave id :: pending)
      exact .inside under List.nil_suffix outer

theorem Waits.enter (ordered : tree.IsPreorder)
    (waits : Waits tree top opened (.enter id :: rest)) :
    EntersUnder tree top opened id ∧ Waits tree top opened rest := by
  generalize whole : Event.enter id :: rest = pending at waits
  cases waits with
  | @outside waiting suffix =>
      cases waiting with
      | nil => cases whole
      | cons first waiting =>
          cases whole
          have member := suffix.mem List.mem_cons_self
          exact ⟨List.mem_singleton.1 member, .outside ((List.suffix_cons ..).trans suffix)⟩
  | @inside inner opened waiting pending under suffix outer =>
      cases waiting with
      | nil => cases whole
      | cons first waiting =>
          cases whole
          obtain ⟨place, listed⟩ := List.getElem?_of_mem (suffix.mem List.mem_cons_self)
          obtain ⟨node, found, up, -⟩ := (ordered.listed_iff inner place id).1 listed
          refine ⟨?_, .inside under ((List.suffix_cons ..).trans suffix) outer⟩
          rw [EntersUnder, Tree.parentOf?, found]
          exact up

theorem Waits.leave (waits : Waits tree top opened (.leave id :: rest)) :
    ∃ outer, opened = id :: outer ∧ EntersUnder tree top outer id ∧ Waits tree top outer rest := by
  generalize whole : Event.leave id :: rest = pending at waits
  cases waits with
  | @outside waiting suffix =>
      cases waiting with
      | nil => cases whole
      | cons first waiting => cases whole
  | @inside inner opened waiting pending under suffix outer =>
      cases waiting with
      | nil =>
          cases whole
          exact ⟨opened, rfl, under, outer⟩
      | cons first waiting => cases whole

end Shape

/-- A walk from `top` after it gave some reports. What was entered and what waits to be entered are
together increasing, and the waiting subtrees are apart. -/
structure Underway (tree : Tree π) (top : Nat) (events : List Event) (walk : Walk) : Prop where
  nested : Event.openAfter? [] events = some walk.ancestors
  waits : Waits tree top walk.ancestors walk.pending
  increasing : (events.filterMap Event.entered? ++
    walk.pending.filterMap Event.entered?).Pairwise (· < ·)
  apart : (walk.pending.filterMap Event.entered?).Pairwise tree.EndsBefore
  inside : ∀ id ∈ events.filterMap Event.entered? ++ walk.pending.filterMap Event.entered?,
    tree.Below top id
  under : ∀ before id after, events = before ++ .enter id :: after →
    (before = [] ∧ id = top) ∨ ∃ outer opened,
      Event.openAfter? [] before = some (outer :: opened) ∧ tree.parentOf? id = some outer

namespace Underway

variable {events : List Event} {walk : Walk} {id : Nat} {rest : List Event}

theorem start (tree : Tree π) (top : Nat) : Underway tree top [] (Walk.start top) where
  nested := rfl
  waits := show Waits tree top [] ([top].map .enter) from .outside (List.suffix_refl _)
  increasing := List.pairwise_singleton _ top
  apart := List.pairwise_singleton _ top
  inside id member := by
    have same : id = top := List.mem_singleton.1 member
    rw [same]
    exact .here
  under before id after whole := by
    have length := congrArg List.length whole
    simp at length

theorem prune (underway : Underway tree top events walk) :
    Underway tree top events walk.prune := by
  have fewer : (walk.prune.pending.filterMap Event.entered?).Sublist
      (walk.pending.filterMap Event.entered?) :=
    (List.dropWhile_sublist _).filterMap _
  have together := (List.Sublist.refl (events.filterMap Event.entered?)).append fewer
  refine ⟨?_, ?_, underway.increasing.sublist together, underway.apart.sublist fewer, ?_,
    underway.under⟩
  · rw [ancestors_prune]
    exact underway.nested
  · rw [ancestors_prune]
    exact underway.waits.prune
  · intro id member
    exact underway.inside id (together.mem member)

theorem under_snoc {event : Event} {Stands : List Event → Nat → Prop}
    (before : ∀ front id after, events = front ++ .enter id :: after → Stands front id)
    (now : ∀ id, event = .enter id → Stands events id) (front : List Event) (id : Nat)
    (after : List Event) (whole : events ++ [event] = front ++ .enter id :: after) :
    Stands front id := by
  rcases List.eq_nil_or_concat after with none | ⟨init, last, some⟩
  · subst none
    obtain ⟨same, isLast⟩ := List.append_inj' whole rfl
    subst same
    exact now id (List.singleton_inj.1 isLast)
  · subst some
    have split : events ++ [event] = (front ++ .enter id :: init) ++ [last] := by
      simpa only [List.concat_eq_append, List.append_assoc, List.cons_append] using whole
    exact before front id init (List.append_inj' split rfl).1

theorem leave (underway : Underway tree top events ⟨.leave id :: rest⟩) :
    Underway tree top (events ++ [.leave id]) ⟨rest⟩ := by
  have same : (events ++ [Event.leave id]).filterMap Event.entered? =
      events.filterMap Event.entered? := by
    rw [List.filterMap_append]
    exact List.append_nil _
  obtain ⟨opened, whole, -, outer⟩ := underway.waits.leave
  have left := outer.opened_eq
  refine ⟨?_, ?_, ?_, underway.apart, ?_, ?_⟩
  · apply Event.open_after_leave
    exact underway.nested
  · rw [ancestors, left]
    exact outer
  · rw [same]
    exact underway.increasing
  · rw [same]
    exact underway.inside
  · apply under_snoc underway.under
    intro other isEnter
    cases isEnter

theorem behind_subtree (underway : Underway tree top events ⟨.enter id :: rest⟩) {stop : Nat}
    (fills : tree.Fills id stop) {other : Nat} (waits : other ∈ rest.filterMap Event.entered?) :
    stop ≤ other := by
  obtain ⟨last, lastFills, before⟩ := List.rel_of_pairwise_cons underway.apart waits
  rw [fills.stop_unique lastFills]
  exact before

theorem first_or_child (ordered : tree.IsPreorder)
    (underway : Underway tree top events ⟨.enter id :: rest⟩)
    (under : EntersUnder tree top (ancestors ⟨.enter id :: rest⟩) id) :
    (events = [] ∧ id = top) ∨ ∃ outer opened,
      Event.openAfter? [] events = some (outer :: opened) ∧ tree.parentOf? id = some outer := by
  have nested := underway.nested
  generalize ancestors ⟨.enter id :: rest⟩ = opened at under nested
  cases opened with
  | cons outer opened => exact Or.inr ⟨outer, opened, nested, under⟩
  | nil =>
      have isTop : id = top := under
      -- Whatever was entered before would lie in front of the top and below it.
      have none : events.filterMap Event.entered? = [] := by
        apply List.eq_nil_iff_forall_not_mem.2
        intro other member
        have ahead := (List.pairwise_append.1 underway.increasing).2.2 other member id
          List.mem_cons_self
        have below := underway.inside other (List.mem_append_left _ member)
        have behind := ordered.le_of_below below
        omega
      exact Or.inl ⟨Event.eq_nil_of_none_entered nested none, isTop⟩

section Below

variable {node : Node π}

theorem apart_below (ordered : tree.IsPreorder) (found : tree.get? id = some node)
    (underway : Underway tree top events ⟨.enter id :: rest⟩) :
    (node.children ++ rest.filterMap Event.entered?).Pairwise tree.EndsBefore := by
  obtain ⟨stop, spans⟩ := ordered.children_span found
  have fills : tree.Fills id stop := ⟨node, found, spans⟩
  apply List.pairwise_append.2
  refine ⟨spans.apart, List.Pairwise.of_cons underway.apart, ?_⟩
  intro child isChild other waits
  obtain ⟨-, last, childFills, ends⟩ := spans.member_fills isChild
  exact ⟨last, childFills, Nat.le_trans ends (underway.behind_subtree fills waits)⟩

theorem increasing_below (ordered : tree.IsPreorder) (found : tree.get? id = some node)
    (underway : Underway tree top events ⟨.enter id :: rest⟩) :
    (events.filterMap Event.entered? ++
      id :: (node.children ++ rest.filterMap Event.entered?)).Pairwise (· < ·) := by
  obtain ⟨early, late, across⟩ := List.pairwise_append.1 underway.increasing
  have later : ∀ other ∈ node.children ++ rest.filterMap Event.entered?, id < other := by
    intro other member
    rcases List.mem_append.1 member with isChild | waits
    · exact (ordered.child found isChild).1
    · exact List.rel_of_pairwise_cons late waits
  have sorted := (underway.apart_below ordered found).imp Tree.EndsBefore.lt
  apply List.pairwise_append.2
  refine ⟨early, List.pairwise_cons.2 ⟨later, sorted⟩, ?_⟩
  intro before member other after
  have ahead := across before member id List.mem_cons_self
  rcases List.mem_cons.1 after with same | below
  · rw [same]
    exact ahead
  · exact Nat.lt_trans ahead (later other below)

theorem enter (ordered : tree.IsPreorder) (found : tree.get? id = some node)
    (underway : Underway tree top events ⟨.enter id :: rest⟩) :
    Underway tree top (events ++ [.enter id]) ⟨node.children.map .enter ++ .leave id :: rest⟩ := by
  have entered : (events ++ [Event.enter id]).filterMap Event.entered? =
      events.filterMap Event.entered? ++ [id] := by
    rw [List.filterMap_append]
    rfl
  have waiting : (node.children.map Event.enter ++ .leave id :: rest).filterMap Event.entered? =
      node.children ++ rest.filterMap Event.entered? :=
    filter_entered_enter node.children (.leave id :: rest)
  have leaving : (node.children.map Event.enter ++ .leave id :: rest).filterMap Event.left? =
      id :: rest.filterMap Event.left? :=
    filter_left_enter node.children (.leave id :: rest)
  obtain ⟨under, outer⟩ := underway.waits.enter ordered
  refine ⟨?_, ?_, ?_, ?_, ?_, ?_⟩
  · rw [ancestors, leaving]
    exact Event.open_after_enter underway.nested id
  · rw [ancestors, leaving]
    have whole : [] ++ node.children = tree.childrenOf id :=
      (Tree.children_of_eq_of_get found).symm
    exact .inside under ⟨[], whole⟩ outer
  · rw [entered, waiting, List.append_assoc, List.singleton_append]
    exact underway.increasing_below ordered found
  · rw [waiting]
    exact underway.apart_below ordered found
  · rw [entered, waiting]
    have above : tree.Below top id :=
      underway.inside id (List.mem_append_right _ List.mem_cons_self)
    intro other member
    simp only [List.mem_append, List.mem_singleton] at member
    rcases member with (before | same) | isChild | waits
    · exact underway.inside other (List.mem_append_left _ before)
    · rw [same]
      exact above
    · obtain ⟨-, below, foundBelow, up⟩ := ordered.child found isChild
      exact .child foundBelow up above
    · exact underway.inside other (List.mem_append_right _ (List.mem_cons_of_mem _ waits))
  · apply under_snoc underway.under
    intro other isEnter
    cases isEnter
    exact underway.first_or_child ordered under

end Below

/-- The next report keeps the walk underway, unless nothing is pending any more. -/
theorem next_cases (ordered : tree.IsPreorder) (known : top < tree.size)
    (underway : Underway tree top events walk) :
    (walk.pending = [] ∧ walk.next tree = (.ok none, walk)) ∨
      ∃ event after, walk.next tree = (.ok (some event), after) ∧
        Underway tree top (events ++ [event]) after := by
  obtain ⟨pending⟩ := walk
  cases pending with
  | nil => exact Or.inl ⟨rfl, rfl⟩
  | cons event rest =>
      cases event with
      | leave id => exact Or.inr ⟨.leave id, ⟨rest⟩, rfl, underway.leave⟩
      | enter id =>
          have below := underway.inside id (List.mem_append_right _ List.mem_cons_self)
          obtain ⟨node, found⟩ := Tree.exists_of_lt_size (below.lt_size known)
          exact Or.inr ⟨.enter id, _, next_enter found rest, underway.enter ordered found⟩

end Underway

end Walk

end TreePattern
