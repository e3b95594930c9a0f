import TreePattern.Proofs.Automaton.SubsetRows

/-!
# The worklist without a count

Subset construction expands one found set after the other until each of them has its row. Stated
without a count the run need not end; a run that does end is what any sufficient count computes, and
the count of the construction suffices. What every step between sets keeps therefore holds
of all the sets found.
-/

set_option autoImplicit false

namespace TreePattern

universe u

namespace Automaton

variable {κ : Type u} [BEq κ]

/-- Expanding set after set leads from the found sets and the first rows to all found sets, each
with its row. -/
inductive Exhausts (automaton : Automaton κ) : List (List Nat) → Array (List (Transition κ)) →
    List (List Nat) → Array (List (Transition κ)) → Prop where
  | done {found : List (List Nat)} {rows : Array (List (Transition κ))}
      (complete : found[rows.size]? = none) : Exhausts automaton found rows found rows
  | expand {found after final : List (List Nat)} {rows finalRows : Array (List (Transition κ))}
      {members : List Nat} {row : List (Transition κ)} (next : found[rows.size]? = some members)
      (expanded :
        automaton.expandSet members (automaton.testsOfSet members) found = .ok (row, after))
      (rest : Exhausts automaton after (rows.push row) final finalRows) :
      Exhausts automaton found rows final finalRows

variable {automaton : Automaton κ} {found final : List (List Nat)}
  {rows finalRows : Array (List (Transition κ))}

theorem exhausts_of_expand_sets {count : Nat}
    (ran : automaton.expandSets count found rows = .ok (final, finalRows))
    (complete : finalRows.size = final.length) :
    automaton.Exhausts found rows final finalRows := by
  induction count generalizing found rows with
  | zero =>
      cases ran
      exact .done (List.getElem?_eq_none_iff.2 (Nat.le_of_eq complete.symm))
  | succ count induction =>
      unfold expandSets at ran
      split at ran
      · rename_i finished
        cases ran
        exact .done finished
      · rename_i members next
        split at ran
        · cases ran
        · rename_i row after expanded
          exact .expand next expanded (induction ran)

namespace Exhausts

theorem rows_prefix (exhausts : automaton.Exhausts found rows final finalRows) :
    rows.toList <+: finalRows.toList := by
  induction exhausts with
  | done => exact List.prefix_refl _
  | expand next expanded rest later =>
      rw [Array.toList_push] at later
      exact (List.prefix_append _ _).trans later

theorem get_pushed_row {row : List (Transition κ)}
    (exhausts : automaton.Exhausts found (rows.push row) final finalRows) :
    finalRows[rows.size]? = some row := by
  obtain ⟨added, whole⟩ := exhausts.rows_prefix
  rw [← Array.getElem?_toList, ← whole, Array.toList_push, List.append_assoc,
    ← Array.length_toList, List.getElem?_append_right (Nat.le_refl _), Nat.sub_self]
  rfl

theorem found_prefix (exhausts : automaton.Exhausts found rows final finalRows) :
    found <+: final := by
  induction exhausts with
  | done => exact List.prefix_refl _
  | expand next expanded rest later => exact (expansion_of_expand_set expanded).keeps.trans later

theorem expand_sets (exhausts : automaton.Exhausts found rows final finalRows) {count : Nat}
    (enough : finalRows.size ≤ rows.size + count) :
    automaton.expandSets count found rows = .ok (final, finalRows) := by
  induction exhausts generalizing count with
  | done complete =>
      cases count with
      | zero => rfl
      | succ count => simp only [expandSets, complete]
  | @expand found after final rows finalRows members row next expanded rest later =>
      have grown := rest.rows_prefix.length_le
      rw [Array.length_toList, Array.length_toList, Array.size_push] at grown
      cases count with
      | zero => omega
      | succ count =>
          have others : automaton.expandSets count after (rows.push row) =
              .ok (final, finalRows) := by
            apply later
            rw [Array.size_push]
            omega
          simp only [expandSets, next, expanded, others]

theorem numbering (exhausts : automaton.Exhausts found rows final finalRows)
    (valid : automaton.Numbering found rows) : automaton.Numbering final finalRows := by
  induction exhausts with
  | done => exact valid
  | expand next expanded rest later =>
      exact later (valid.expand next (expansion_of_expand_set expanded))

/-- What the steps between sets keep holds of all the sets found. -/
theorem forall_found (Holds : List Nat → Prop)
    (kept : ∀ members test next, Holds members → test ∈ automaton.testsOfSet members →
      automaton.testStep members test = .ok next → Holds next)
    (exhausts : automaton.Exhausts found rows final finalRows)
    (hold : ∀ members ∈ found, Holds members) : ∀ members ∈ final, Holds members := by
  induction exhausts with
  | done => exact hold
  | @expand found after final rows finalRows members row next expanded rest later =>
      apply later
      intro set member
      rcases (expansion_of_expand_set expanded).origin set member with old | new
      · exact hold set old
      · obtain ⟨test, listed, stepped⟩ := new
        exact kept members test set (hold members (List.mem_of_getElem? next)) listed stepped

end Exhausts

theorem exhausts_of_to_dfa {automaton dfa : Automaton κ} (reduced : automaton.toDfa = .ok dfa) :
    ∃ found rows, automaton.Exhausts [(automaton.closure (.ofList [automaton.start])).toList] #[]
        found rows ∧
      dfa = automaton.ofSets found rows ∧ automaton.SubsetOf dfa found := by
  obtain ⟨found, rows, ran, numbering, complete, rfl⟩ := numbering_of_to_dfa reduced
  exact ⟨found, rows, exhausts_of_expand_sets ran complete, rfl, numbering.subset_of complete⟩

/-- A worklist that runs to its end by itself is what the construction computes: the sets are
distinct and closed, so there are no more of them than the construction allows. -/
theorem Exhausts.to_dfa
    (exhausts : automaton.Exhausts [(automaton.closure (.ofList [automaton.start])).toList] #[]
      final finalRows) :
    automaton.toDfa = .ok (automaton.ofSets final finalRows) := by
  have numbering := exhausts.numbering (.initial automaton)
  have ran : automaton.expandSets (Nat.pow 2 (automaton.table.toList.length + 1))
      [(automaton.closure (.ofList [automaton.start])).toList] #[] = .ok (final, finalRows) := by
    apply exhausts.expand_sets
    calc
      finalRows.size ≤ final.length := numbering.within
      _ ≤ 2 ^ (automaton.table.toList.length + 1) :=
        automaton.length_closed_le numbering.distinct numbering.closed
      _ = (#[] : Array (List (Transition κ))).size +
          Nat.pow 2 (automaton.table.toList.length + 1) := (Nat.zero_add _).symm
  unfold toDfa
  simp only [ran]
  rfl

end Automaton

end TreePattern
