import TreePattern.Proofs.Tree.Span
import TreePattern.Tree.Walk

/-!
# Walks enter the nodes in the order of their indices

A walk that waits to enter the nodes of a span reports twice for each index of the span, enters the
indices in increasing order, and then goes on with whatever waited behind them.
-/

set_option autoImplicit false

namespace TreePattern

universe u

variable {π : Type u} {tree : Tree π}

namespace Walk

theorem take_reports_succ {count : Nat} {walk after finished : Walk} {event : Event}
    {events : List Event} (reported : walk.next tree = (.ok (some event), after))
    (others : after.takeReports tree count = (.ok events, finished)) :
    walk.takeReports tree (count + 1) = (.ok (event :: events), finished) := by
  rw [takeReports, reported]
  simp only [others]

/-- The reports for a span, and how a walk gives them before what it would give otherwise. -/
theorem take_reports_spans {parent : Option Nat} {place start stop : Nat} {ids : List Nat}
    (spans : tree.Spans parent place ids start stop) :
    ∃ block, block.filterMap Event.entered? = List.range' start (stop - start) ∧
      ∀ count rest events finished, takeReports tree count ⟨rest⟩ = (.ok events, finished) →
        takeReports tree (2 * (stop - start) + count) ⟨ids.map .enter ++ rest⟩ =
          (.ok (block ++ events), finished) := by
  induction spans with
  | nil =>
      refine ⟨[], ?_, ?_⟩
      · rw [Nat.sub_self]
        rfl
      · intro count rest events finished others
        rw [Nat.sub_self, Nat.mul_zero, Nat.zero_add]
        exact others
  | @cons parent place id middle stop node ids found above placed plain inner others
      innerReports othersReport =>
      have before := inner.start_le_stop
      have behind := others.start_le_stop
      obtain ⟨innerBlock, innerEntered, innerTakes⟩ := innerReports
      obtain ⟨othersBlock, othersEntered, othersTake⟩ := othersReport
      refine ⟨.enter id :: (innerBlock ++ .leave id :: othersBlock), ?_, ?_⟩
      · have whole : stop - id = (middle - (id + 1) + (stop - middle)) + 1 := by omega
        have joint : middle = id + 1 + 1 * (middle - (id + 1)) := by omega
        rw [whole, List.range'_succ, ← List.range'_append, ← joint, ← innerEntered,
          ← othersEntered]
        simp only [List.filterMap_cons, List.filterMap_append, Event.entered?]
      · intro count rest events finished reports
        have last := othersTake count rest events finished reports
        have left := take_reports_succ (next_leave tree id _) last
        have down := innerTakes _ _ _ _ left
        have entered := take_reports_succ (next_enter found _) down
        have sum : 2 * (stop - id) + count =
            2 * (middle - (id + 1)) + (2 * (stop - middle) + count + 1) + 1 := by omega
        rw [sum]
        simpa only [List.map_cons, List.cons_append, List.append_assoc] using entered

theorem take_reports_subtree {parent : Option Nat} {place top stop : Nat}
    (spans : tree.Spans parent place [top] top stop) :
    ∃ block, block.filterMap Event.entered? = List.range' top (stop - top) ∧
      ∀ count, 2 * (stop - top) ≤ count →
        takeReports tree count (start top) = (.ok block, ⟨[]⟩) := by
  obtain ⟨block, entered, takes⟩ := take_reports_spans spans
  refine ⟨block, entered, ?_⟩
  intro count enough
  have nothing : takeReports tree (count - 2 * (stop - top)) ⟨[]⟩ = (.ok [], ⟨[]⟩) := by
    cases count - 2 * (stop - top) <;> rfl
  have reports := takes _ [] [] ⟨[]⟩ nothing
  rw [Nat.add_sub_cancel' enough] at reports
  simpa only [start, List.map_singleton, List.append_nil] using reports

end Walk

/-- A walk from the root enters each node once, in the order of the indices, and then is over. -/
theorem Tree.IsPreorder.exists_events (ordered : tree.IsPreorder) :
    ∃ events, (Walk.start root).rest tree = (.ok events, ⟨[]⟩) ∧
      events.filterMap Event.entered? = List.range tree.size := by
  obtain ⟨block, entered, takes⟩ := Walk.take_reports_subtree ordered
  refine ⟨block, takes _ (Nat.le_add_left _ _), ?_⟩
  rw [entered, List.range_eq_range']
  rfl

theorem Tree.IsPreorder.preorder_eq (ordered : tree.IsPreorder) :
    tree.preorder = List.range tree.size := by
  obtain ⟨events, reported, entered⟩ := ordered.exists_events
  rw [preorder, Tree.events, reported]
  exact entered

end TreePattern
