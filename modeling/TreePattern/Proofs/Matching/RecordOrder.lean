import Mathlib.Data.List.Lex
import TreePattern.Proofs.Matching.Visits

/-!
# The order of the recorded attempts and steps

Every list of attempts or steps that a traversal holds is strictly increasing by key. The members of
such a list determine it, and its first element is the least.
-/

set_option autoImplicit false

namespace TreePattern

universe u v

section Increasing

variable {α : Type u} {key : α → List Nat}

def Increasing (key : α → List Nat) (elements : List α) : Prop :=
  elements.Pairwise fun first second => key first < key second

theorem increasing_insert_by_key (injective : ∀ left right, key left = key right → left = right)
    (element : α) {elements : List α} (sorted : Increasing key elements) :
    Increasing key (insertByKey key element elements) := by
  induction sorted with
  | nil => exact List.pairwise_singleton _ _
  | @cons first rest before sorted induction =>
      unfold insertByKey
      split
      · rename_i smaller
        apply List.Pairwise.cons
        · intro other member
          rcases List.mem_cons.1 member with isFirst | inRest
          · rw [isFirst]
            exact smaller
          · exact lt_trans smaller (before other inRest)
        · exact .cons before sorted
      · rename_i notSmaller
        split
        · exact .cons before sorted
        · rename_i notSame
          have larger : key first < key element :=
            lt_of_le_of_ne (not_lt.1 notSmaller) (Ne.symm notSame)
          apply List.Pairwise.cons
          · intro other member
            rcases (mem_insert_by_key injective element other rest).1 member with isNew | inRest
            · rw [isNew]
              exact larger
            · exact before other inRest
          · exact induction

theorem increasing_order_by_key (injective : ∀ left right, key left = key right → left = right)
    (elements : List α) : Increasing key (orderByKey key elements) := by
  induction elements with
  | nil => exact .nil
  | cons element rest induction => exact increasing_insert_by_key injective element induction

theorem Increasing.nodup {elements : List α} (sorted : Increasing key elements) :
    elements.Nodup := by
  apply List.Pairwise.imp _ sorted
  intro first second smaller same
  rw [same] at smaller
  exact lt_irrefl _ smaller

theorem Increasing.head_lt {first other : α} {rest : List α}
    (sorted : Increasing key (first :: rest)) (member : other ∈ first :: rest)
    (different : other ≠ first) : key first < key other := by
  rcases List.mem_cons.1 member with same | inRest
  · exact absurd same different
  · exact (List.pairwise_cons.1 sorted).1 other inRest

/-- A list in order is determined by its members. -/
theorem Increasing.eq_of_mem_iff {left right : List α} (leftSorted : Increasing key left)
    (rightSorted : Increasing key right) (same : ∀ element, element ∈ left ↔ element ∈ right) :
    left = right := by
  have permuted : left.Perm right :=
    (List.perm_ext_iff_of_nodup leftSorted.nodup rightSorted.nodup).2 same
  apply permuted.eq_of_pairwise _ leftSorted rightSorted
  intro first second _ _ before after
  exact absurd after (lt_asymm before)

end Increasing

theorem Attempt.advance_key_lt {first second : Attempt} (smaller : first.key < second.key)
    (sameAutomaton : first.automaton = second.automaton) (position firstTarget secondTarget : Nat) :
    (first.advance position firstTarget).key < (second.advance position secondTarget).key := by
  simp only [key, List.cons_lt_cons_iff, sameAutomaton, lt_self_iff_false, and_false,
    or_false] at smaller
  simp only [Step.key, advance, List.cons_lt_cons_iff]
  rcases smaller with last | state
  · exact Or.inl last
  · exact Or.inr ⟨state.1, Or.inl state.2⟩

structure Field.Ordered (field : Field) : Prop where
  attempts : ∀ attempts ∈ field.attempts, Increasing Attempt.key attempts
  steps : ∀ steps ∈ field.steps, Increasing Step.key steps

theorem Field.ordered_blank (automata : Nat) : (Field.blank automata).Ordered where
  attempts attempts member := by
    rw [(Array.mem_replicate.1 member).2]
    exact .nil
  steps steps member := by
    rw [(Array.mem_replicate.1 member).2]
    exact .nil

variable {κ : Type u} {π : Type v}

namespace Traversal

variable {traversal : Traversal π}

def Ordered (traversal : Traversal π) : Prop := ∀ field ∈ traversal.fields, field.Ordered

theorem ordered_reset (traversal : Traversal π) (automata : Nat) :
    (traversal.reset automata).Ordered := by
  intro field member
  obtain ⟨-, -, same⟩ := Array.mem_map.1 member
  rw [← same]
  exact Field.ordered_blank automata

theorem Ordered.attempts_at (ordered : traversal.Ordered) (id index : Nat) :
    Increasing Attempt.key (traversal.attemptsAt id index) := by
  unfold attemptsAt
  cases found : (traversal.fields[id]?).bind (·.attempts[index]?) with
  | none => exact .nil
  | some attempts =>
      obtain ⟨field, isField, listed⟩ := Option.bind_eq_some_iff.1 found
      exact (ordered field (Array.mem_of_getElem? isField)).attempts attempts
        (Array.mem_of_getElem? listed)

end Traversal

namespace Engine

variable {engine : Engine κ} {tree : Tree π} {traversal : Traversal π}

theorem increasing_entering_attempts (ordered : traversal.Ordered) (id : Nat) (node : Node π)
    (index : Nat) (automaton : Automaton κ) :
    Increasing Attempt.key (enteringAttempts traversal id node index automaton) := by
  unfold enteringAttempts
  cases node.kind with
  | root => exact List.pairwise_singleton _ _
  | firstChild => exact ordered.attempts_at _ _
  | laterSibling => exact increasing_order_by_key (fun _ _ => Attempt.key_injective) _

variable [Matches κ (Node π)]

theorem increasing_pass_through {attempts : List Attempt} (sorted : Increasing Attempt.key attempts)
    {index : Nat} (owned : ∀ attempt ∈ attempts, attempt.automaton = index)
    (automaton : Automaton κ) (node : Node π) (position : Nat) :
    Increasing Step.key (passThrough automaton node position attempts) := by
  unfold passThrough Increasing
  rw [List.pairwise_filterMap]
  apply List.Pairwise.imp_of_mem _ sorted
  intro first second isFirst isSecond smaller step moved later laterMoved
  obtain ⟨target, -, whole⟩ := Option.map_eq_some_iff.1 moved
  obtain ⟨laterTarget, -, laterWhole⟩ := Option.map_eq_some_iff.1 laterMoved
  rw [← whole, ← laterWhole]
  apply Attempt.advance_key_lt smaller
  rw [owned first isFirst, owned second isSecond]

theorem Visited.ordered_visit (preorder : tree.IsPreorder) {id : Nat}
    (visited : engine.Visited tree id traversal) (ordered : traversal.Ordered) :
    (engine.visit traversal id).Ordered := by
  unfold Engine.visit
  rw [visited.sameTree]
  cases found : tree.get? id with
  | none => exact ordered
  | some node =>
      intro field member
      rcases Array.mem_or_eq_of_mem_setIfInBounds member with old | isNew
      · exact ordered field old
      · subst isNew
        have entering (index : Nat) (automaton : Automaton κ) :=
          increasing_entering_attempts ordered id node index automaton
        constructor
        · intro attempts listed
          obtain ⟨index, bound, same⟩ := Array.mem_mapIdx.1 listed
          rw [← same]
          exact entering index _
        · intro steps listed
          obtain ⟨index, bound, same⟩ := Array.mem_mapIdx.1 listed
          have known := Array.getElem?_eq_getElem bound
          rw [← same]
          simp only [Array.getElem?_mapIdx, known, Option.map_some, Option.getD_some]
          apply increasing_pass_through (entering index _)
          intro attempt enters
          exact ((visited.mem_entering_attempts preorder found known attempt).1 enters).1

theorem ordered_retraverse (engine : Engine κ) (traversal : Traversal π)
    (preorder : traversal.tree.IsPreorder) (size : traversal.fields.size = traversal.tree.size) :
    (engine.retraverse traversal).Ordered := by
  unfold retraverse
  rw [preorder.preorder_eq]
  have visits (count : Nat) (bound : count ≤ traversal.tree.size) :
      ((List.range count).foldl engine.visit (traversal.reset engine.automata.size)).Ordered := by
    induction count with
    | zero => exact traversal.ordered_reset engine.automata.size
    | succ count induction =>
        rw [List.range_succ, List.foldl_append, List.foldl_cons, List.foldl_nil]
        have visited := engine.visited_range traversal preorder size count (by omega)
        exact visited.ordered_visit preorder (induction (by omega))
  exact visits traversal.tree.size (Nat.le_refl _)

theorem ordered_traverse (engine : Engine κ) (preorder : tree.IsPreorder) :
    (engine.traverse tree).Ordered :=
  engine.ordered_retraverse (.blank tree engine.automata.size) preorder Array.size_replicate

end Engine

end TreePattern
