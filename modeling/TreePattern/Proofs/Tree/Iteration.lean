import Mathlib.Data.List.Nodup
import Mathlib.Data.List.Perm.Subperm
import TreePattern.Proofs.Tree.Pruning

/-!
# Iterating over a subtree

A caller asks a walk for its next report or prunes it, in any order. Whatever the calls, the reports
are well nested, the walk tells its open nodes, and it ends after no more reports than twice the
number of nodes, every entered node being left. Without pruning it enters the whole subtree, once
and in pre-order.
-/

set_option autoImplicit false

namespace TreePattern

universe u

variable {π : Type u}

namespace Tree

mutual

/-- The nodes are the subtree of `id`: the node first, then the subtrees of its children, each in
the same order. -/
inductive PreorderOf (tree : Tree π) : Nat → List Nat → Prop where
  | visit {id : Nat} {node : Node π} {nodes : List Nat} (found : tree.get? id = some node)
      (parts : PreordersOf tree node.children nodes) : PreorderOf tree id (id :: nodes)

inductive PreordersOf (tree : Tree π) : List Nat → List Nat → Prop where
  | nil : PreordersOf tree [] []
  | cons {id : Nat} {rest first others : List Nat} (part : PreorderOf tree id first)
      (parts : PreordersOf tree rest others) : PreordersOf tree (id :: rest) (first ++ others)

end

end Tree

namespace Walk

inductive Call where
  | next
  | prune
  deriving DecidableEq, Repr

def run (tree : Tree π) : List Call → Walk → Except Failure (List Event × Walk)
  | [], walk => .ok ([], walk)
  | .prune :: calls, walk => run tree calls walk.prune
  | .next :: calls, walk =>
      match walk.next tree with
      | (.error failure, _) => .error failure
      | (.ok none, after) => run tree calls after
      | (.ok (some event), after) =>
          (run tree calls after).map fun (events, last) => (event :: events, last)

variable {tree : Tree π} {top : Nat}

/-- What the reports given so far, and the open nodes that the walk tells, have to do with the
subtree of `top`. -/
structure WellNested (tree : Tree π) (top : Nat) (events : List Event) (walk : Walk) : Prop where
  ancestors : Event.openAfter? [] events = some walk.ancestors
  chain : walk.ancestors.IsChain fun inner outer => tree.parentOf? inner = some outer
  outermost : walk.ancestors ≠ [] → walk.ancestors.getLast? = some top
  inside : ∀ id, .enter id ∈ events → tree.Below top id
  once : (events.filterMap Event.entered?).Nodup
  left : ∀ before id after, events = before ++ .leave id :: after → .enter id ∈ before
  under : ∀ before id after, events = before ++ .enter id :: after →
    (before = [] ∧ id = top) ∨ ∃ outer opened,
      Event.openAfter? [] before = some (outer :: opened) ∧ tree.parentOf? id = some outer
  siblings : (events.filterMap Event.entered?).Pairwise fun first second =>
    ∀ firstNode secondNode, tree.get? first = some firstNode →
      tree.get? second = some secondNode → firstNode.parent = secondNode.parent →
        firstNode.index < secondNode.index

/-- What a prune right after a report leads to. -/
structure PrunesInside (tree : Tree π) (top : Nat) (walk : Walk) : Prop where
  entered : ∀ id after, walk.next tree = (.ok (some (.enter id)), after) →
    (after.prune.next tree).1 = .ok (some (.leave id))
  left : ∀ id after, walk.next tree = (.ok (some (.leave id)), after) → id ≠ top →
    ∃ outer, tree.parentOf? id = some outer ∧
      (after.prune.next tree).1 = .ok (some (.leave outer))

section OpenChain

variable {opened : List Nat} {pending : List Event}

theorem Waits.chain (waits : Waits tree top opened pending) :
    opened.IsChain fun inner outer => tree.parentOf? inner = some outer := by
  induction waits with
  | outside => exact .nil
  | @inside id opened waiting pending under suffix outer chain =>
      cases opened with
      | nil => exact .singleton id
      | cons inner opened => exact .cons_cons under chain

theorem Waits.outermost (waits : Waits tree top opened pending) (some : opened ≠ []) :
    opened.getLast? = .some top := by
  induction waits with
  | outside => exact absurd rfl some
  | @inside id opened waiting pending under suffix outer outermost =>
      cases opened with
      | nil =>
          have isTop : id = top := under
          rw [isTop]
          rfl
      | cons inner opened =>
          rw [List.getLast?_cons_cons]
          exact outermost (List.cons_ne_nil inner opened)

end OpenChain

theorem prune_waiting (ids : List Nat) (id : Nat) (rest : List Event) :
    prune ⟨ids.map .enter ++ .leave id :: rest⟩ = ⟨.leave id :: rest⟩ := by
  rw [prune, drop_while_enter]
  rfl

section Finished

theorem next_enter_report {id : Nat} {rest : List Event} {report : Option Event} {after : Walk}
    (reported : next tree ⟨.enter id :: rest⟩ = (.ok report, after)) :
    report = some (.enter id) ∧
      ∃ ids : List Nat, after = ⟨ids.map .enter ++ .leave id :: rest⟩ := by
  cases found : tree.get? id with
  | some node =>
      rw [next_enter found] at reported
      cases reported
      exact ⟨rfl, node.children, rfl⟩
  | none => simp [next, found] at reported

theorem eq_finished_of_next {walk after : Walk} (reported : walk.next tree = (.ok none, after)) :
    after = ⟨[]⟩ := by
  obtain ⟨pending⟩ := walk
  cases pending with
  | nil =>
      cases reported
      rfl
  | cons event rest =>
      cases event with
      | leave id => cases reported
      | enter id => cases (next_enter_report reported).1

theorem run_finished (tree : Tree π) (calls : List Call) :
    run tree calls ⟨[]⟩ = .ok ([], ⟨[]⟩) := by
  induction calls with
  | nil => rfl
  | cons call calls induction =>
      cases call with
      | next => exact induction
      | prune => exact induction

theorem run_of_take_reports {count : Nat} {walk after : Walk} {events : List Event}
    (taken : walk.takeReports tree count = (.ok events, after)) :
    walk.run tree (List.replicate count .next) = .ok (events, after) := by
  induction count generalizing walk events with
  | zero =>
      cases taken
      rfl
  | succ count induction =>
      rw [List.replicate_succ, run]
      rw [takeReports] at taken
      rcases given : walk.next tree with ⟨report, between⟩
      rw [given] at taken
      cases report with
      | error failure => cases taken
      | ok report =>
          cases report with
          | none =>
              cases taken
              rw [eq_finished_of_next given]
              exact run_finished tree _
          | some event =>
              rcases rest : between.takeReports tree count with ⟨others, last⟩
              cases others with
              | error failure =>
                  simp only [rest] at taken
                  cases taken
              | ok others =>
                  simp only [rest] at taken
                  cases taken
                  simp only [induction rest]
                  rfl

end Finished

section Reports

variable {events : List Event} {walk : Walk}

theorem Underway.well_nested (ordered : tree.IsPreorder)
    (underway : Underway tree top events walk) : WellNested tree top events walk where
  ancestors := underway.nested
  chain := underway.waits.chain
  outermost := underway.waits.outermost
  inside id reported :=
    underway.inside id (List.mem_append_left _ (Event.mem_entered.2 reported))
  once := (List.pairwise_append.1 underway.increasing).1.imp Nat.ne_of_lt
  left before id after whole := by
    have nested := underway.nested
    rw [whole] at nested
    exact Event.entered_before_left nested
  under := underway.under
  siblings := by
    apply (List.pairwise_append.1 underway.increasing).1.imp
    intro first second before firstNode secondNode found secondFound siblings
    exact ordered.index_lt found secondFound siblings before

theorem Underway.prunes_inside (underway : Underway tree top events walk) :
    PrunesInside tree top walk := by
  obtain ⟨pending⟩ := walk
  constructor
  · intro id after reported
    cases pending with
    | nil => cases reported
    | cons event rest =>
        cases event with
        | leave other => cases reported
        | enter other =>
            obtain ⟨same, ids, waiting⟩ := next_enter_report reported
            cases same
            rw [waiting, prune_waiting]
            rfl
  · intro id after reported notTop
    cases pending with
    | nil => cases reported
    | cons event rest =>
        cases event with
        | enter other => cases (next_enter_report reported).1
        | leave other =>
            cases reported
            obtain ⟨opened, -, under, outer⟩ := underway.waits.leave
            cases outer with
            | outside => exact absurd under notTop
            | inside =>
                refine ⟨_, under, ?_⟩
                rw [prune_waiting]
                rfl

/-- No walk gives more than two reports for each node of the tree. -/
theorem Underway.length_le (underway : Underway tree top events walk) (known : top < tree.size) :
    events.length ≤ 2 * tree.size := by
  have distinct := (List.pairwise_append.1 underway.increasing).1.imp Nat.ne_of_lt
  have within : events.filterMap Event.entered? ⊆ List.range tree.size := by
    intro id member
    rw [List.mem_range]
    exact (underway.inside id (List.mem_append_left _ member)).lt_size known
  have few := (List.subperm_of_subset distinct within).length_le
  have balance := (Event.left_open_perm underway.nested).length_eq
  have split := Event.length_eq events
  simp only [List.length_append, List.length_nil, List.length_range] at few balance
  omega

theorem Underway.left_once (underway : Underway tree top events walk) (ended : walk.pending = [])
    {id : Nat} (entered : .enter id ∈ events) : events.count (.leave id) = 1 := by
  have distinct := (List.pairwise_append.1 underway.increasing).1.imp Nat.ne_of_lt
  have none : walk.ancestors = [] := by
    rw [ancestors, ended]
    rfl
  have nested := underway.nested
  rw [none] at nested
  have balance := (Event.left_open_perm nested).count_eq id
  rw [List.append_nil, List.append_nil, Event.count_left] at balance
  rw [balance]
  exact List.count_eq_one_of_mem distinct (Event.mem_entered.2 entered)

/-- Whatever the calls, the walk stays underway, and each call for a report gets one as long as
anything is pending. -/
theorem Underway.exists_run (ordered : tree.IsPreorder) (known : top < tree.size)
    (calls : List Call) (underway : Underway tree top events walk) :
    ∃ more last, walk.run tree calls = .ok (more, last) ∧
      Underway tree top (events ++ more) last ∧
      (calls.count .next ≤ more.length ∨ last.pending = []) := by
  induction calls generalizing events walk with
  | nil =>
      refine ⟨[], walk, rfl, ?_, Or.inl (Nat.le_refl 0)⟩
      rw [List.append_nil]
      exact underway
  | cons call calls induction =>
      cases call with
      | prune =>
          obtain ⟨more, last, ran, after, asked⟩ := induction underway.prune
          refine ⟨more, last, ran, after, ?_⟩
          rw [List.count_cons_of_ne (by decide)]
          exact asked
      | next =>
          rcases underway.next_cases ordered known with
            ⟨ended, -⟩ | ⟨event, between, reported, later⟩
          · obtain ⟨pending⟩ := walk
            cases ended
            refine ⟨[], ⟨[]⟩, run_finished tree _, ?_, Or.inr rfl⟩
            rw [List.append_nil]
            exact underway
          · obtain ⟨more, last, ran, after, asked⟩ := induction later
            refine ⟨event :: more, last, ?_, ?_, ?_⟩
            · rw [run, reported]
              change (between.run tree calls).map _ = _
              rw [ran]
              rfl
            · rw [List.append_assoc] at after
              exact after
            · rw [List.count_cons_self, List.length_cons]
              exact asked.imp_left Nat.succ_le_succ

end Reports

end Walk

namespace Tree

variable {tree : Tree π} {top stop : Nat}

theorem Spans.preorders_of {parent : Option Nat} {place start : Nat} {ids : List Nat}
    (spans : tree.Spans parent place ids start stop) :
    tree.PreordersOf ids (List.range' start (stop - start)) := by
  induction spans with
  | nil parent place start =>
      rw [Nat.sub_self]
      exact .nil
  | @cons parent place id middle stop node rest found above placed plain inner others innerLists
      othersList =>
      have before := inner.start_le_stop
      have behind := others.start_le_stop
      have size : stop - id = (middle - (id + 1) + (stop - middle)) + 1 := by omega
      have joint : middle = id + 1 + 1 * (middle - (id + 1)) := by omega
      have whole := PreordersOf.cons (.visit found innerLists) othersList
      rw [List.cons_append] at whole
      rw [size, List.range'_succ, ← List.range'_append, ← joint]
      exact whole

theorem Fills.preorder_of (fills : tree.Fills top stop) :
    tree.PreorderOf top (List.range' top (stop - top)) := by
  have begins := fills.lt_stop
  obtain ⟨node, found, spans⟩ := fills
  have size : stop - top = (stop - (top + 1)) + 1 := by omega
  rw [size, List.range'_succ]
  exact .visit found spans.preorders_of

/-- Left to itself, a walk enters the subtree in the order of the indices. -/
theorem IsPreorder.exists_run_replicate (ordered : tree.IsPreorder) (fills : tree.Fills top stop) :
    ∃ events, events.filterMap Event.entered? = List.range' top (stop - top) ∧
      ∀ count, 2 * (stop - top) ≤ count →
        (Walk.start top).run tree (List.replicate count .next) = .ok (events, ⟨[]⟩) := by
  obtain ⟨node, found, inner⟩ := fills
  have spans : tree.Spans node.parent node.index [top] top stop :=
    .cons found rfl rfl (ordered.plain found) inner (.nil _ _ _)
  obtain ⟨block, entered, takes⟩ := Walk.take_reports_subtree spans
  exact ⟨block, entered, fun count enough => Walk.run_of_take_reports (takes count enough)⟩

end Tree

namespace Walk

variable {tree : Tree π} {top : Nat}

/-- However calls for reports and prunings follow each other, the reports are well nested in the
subtree of the top, the walk tells the open nodes, a pruning cuts off what waits in the innermost
open node, and the walk ends with every entered node left. Unless it is pruned, it enters the
subtree once, in pre-order. -/
theorem well_nested_under_pruning (built : tree.Built) (known : top < tree.size) :
    (∀ calls, ∃ events walk, (start top).run tree calls = .ok (events, walk) ∧
      WellNested tree top events walk ∧ PrunesInside tree top walk ∧
      (2 * tree.size < calls.count .next → walk.next tree = (.ok none, walk) ∧
        ∀ id, .enter id ∈ events → events.count (.leave id) = 1)) ∧
    ∀ count, 2 * tree.size < count →
      ∃ events walk, (start top).run tree (List.replicate count .next) = .ok (events, walk) ∧
        tree.PreorderOf top (events.filterMap Event.entered?) ∧
        (events.filterMap Event.entered?).Nodup ∧
        ∀ id, .enter id ∈ events ↔ tree.Below top id := by
  have ordered := built.is_preorder
  constructor
  · intro calls
    obtain ⟨events, walk, ran, underway, asked⟩ :=
      (Underway.start tree top).exists_run ordered known calls
    rw [List.nil_append] at underway
    refine ⟨events, walk, ran, underway.well_nested ordered, underway.prunes_inside, ?_⟩
    intro enough
    have few := underway.length_le known
    have ended : walk.pending = [] := asked.resolve_left (by omega)
    refine ⟨?_, fun id entered => underway.left_once ended entered⟩
    obtain ⟨pending⟩ := walk
    cases ended
    rfl
  · intro count enough
    obtain ⟨stop, fills, ends⟩ := ordered.fills known
    obtain ⟨events, entered, runs⟩ := ordered.exists_run_replicate fills
    refine ⟨events, ⟨[]⟩, runs count (by omega), ?_, ?_, ?_⟩
    · rw [entered]
      exact fills.preorder_of
    · rw [entered]
      exact List.nodup_range'
    · intro id
      have begins := fills.lt_stop
      rw [← Event.mem_entered, entered, List.mem_range'_1, ordered.below_iff fills]
      omega

def prunedTree : Tree Unit where
  nodes := #[
    { symbol := "a", children := [1, 5] },
    { symbol := "b", parent := some 0, children := [2, 4] },
    { symbol := "c", parent := some 1, children := [3] },
    { symbol := "d", parent := some 2 },
    { symbol := "e", parent := some 1, index := 1 },
    { symbol := "f", parent := some 0, index := 1 }]

theorem pruned_tree_built : prunedTree.Built :=
  .steps (show Tree.ofSteps "a" [.node "b" [.node "c" [.emptyLeaf "d"], .emptyLeaf "e"],
    .emptyLeaf "f"] = .ok prunedTree from rfl)

/-- The first pruning passes over node 3, the second over node 4. -/
theorem well_nested_under_pruning_twice :
    prunedTree.Built ∧ 1 < prunedTree.size ∧
      (start 1).run prunedTree [.next, .next, .prune, .next, .prune, .next, .next] =
        .ok ([.enter 1, .enter 2, .leave 2, .leave 1], ⟨[]⟩) ∧
      WellNested prunedTree 1 [.enter 1, .enter 2, .leave 2, .leave 1] ⟨[]⟩ ∧
      prunedTree.PreorderOf 1 [1, 2, 3, 4] := by
  have known : 1 < prunedTree.size := by decide
  obtain ⟨pruned, whole⟩ := well_nested_under_pruning pruned_tree_built known
  obtain ⟨events, walk, ran, nested, -, -⟩ :=
    pruned [.next, .next, .prune, .next, .prune, .next, .next]
  obtain ⟨reports, last, ranWhole, preorder, -, -⟩ := whole 13 (by decide)
  cases ran
  cases ranWhole
  exact ⟨pruned_tree_built, known, rfl, nested, preorder⟩

end Walk

end TreePattern
