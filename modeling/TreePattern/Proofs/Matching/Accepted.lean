import Mathlib.Control.Monad.Basic
import TreePattern.Matching.Derivation
import TreePattern.Proofs.Matching.Visits
import TreePattern.Proofs.Tree.Built

/-!
# Accepted steps end the matches

The nodes on the rightmost path of the tree are those whose subtree ends with the tree, so a step
through one of them ends a run over a cut of the root. What a traversal accepts is therefore exactly
the last steps of the runs over cuts that end in an accepting state.
-/

set_option autoImplicit false

namespace TreePattern

universe u v

variable {κ : Type u} {π : Type v} [Matches κ (Node π)]

/-- The automaton, run by first matching transitions along the cut that `last` completes, accepts,
and the step records its last move: the positions of the last two nodes, and the states in front of
the last node and behind it. -/
structure Automaton.EndsRun (automaton : Automaton κ) (traversal : Traversal π)
    (earlier : List Nat) (last : Nat) (step : Step) : Prop where
  cut : traversal.tree.Cut Tree.root (earlier ++ [last])
  source : automaton.runAlong traversal.tree automaton.start earlier = some step.source
  target : automaton.runAlong traversal.tree automaton.start (earlier ++ [last]) = some step.target
  accepting : automaton.isAccepting step.target = true
  position : traversal.positionOf? last = some step.position
  previous : step.last = earlier.getLast?.bind traversal.positionOf?
  single : step.last = none ↔ earlier = []

namespace Engine

variable {engine : Engine κ} {tree : Tree π} {traversal : Traversal π}

def EndsMatch (engine : Engine κ) (traversal : Traversal π) (step : Step) : Prop :=
  ∃ automaton, engine.automata[step.automaton]? = some automaton ∧
    ∃ earlier last, automaton.EndsRun traversal earlier last step

/-- The step leads through a node whose subtree ends with the tree, into an accepting state. -/
def Finishes (engine : Engine κ) (tree : Tree π) (step : Step) : Prop :=
  ∃ automaton, engine.automata[step.automaton]? = some automaton ∧
    tree.Fills step.position tree.size ∧
    automaton.Passes tree step.automaton step.position step ∧
    automaton.isAccepting step.target = true

theorem mem_final_steps (ordered : tree.IsPreorder)
    (visited : engine.Visited tree tree.size traversal) (step : Step) :
    step ∈ finalSteps traversal ↔
      ∃ automaton, engine.automata[step.automaton]? = some automaton ∧
        tree.Fills step.position tree.size ∧
        automaton.Passes tree step.automaton step.position step := by
  unfold finalSteps
  rw [List.mem_flatMap, visited.sameTree]
  constructor
  · intro found
    obtain ⟨id, onPath, recorded⟩ := found
    have fills := ((Tree.mem_rightmost_path ordered.root_fills (Nat.le_refl _) id).1 onPath).2
    obtain ⟨automaton, known, passes⟩ := (visited.mem_all_steps_at fills.lt_size step).1 recorded
    have position := ((Automaton.passes_iff step).1 passes).2.1
    subst position
    exact ⟨automaton, known, fills, passes⟩
  · intro ends
    obtain ⟨automaton, known, fills, passes⟩ := ends
    have onPath := (Tree.mem_rightmost_path ordered.root_fills (Nat.le_refl _) step.position).2
      ⟨Nat.zero_le _, fills⟩
    have recorded := (visited.mem_all_steps_at fills.lt_size step).2 ⟨automaton, known, passes⟩
    exact ⟨step.position, onPath, recorded⟩

theorem reaches_accepting_iff (engine : Engine κ) {step : Step} {automaton : Automaton κ}
    (known : engine.automata[step.automaton]? = some automaton) :
    engine.reachesAccepting step = automaton.isAccepting step.target := by
  simp only [reachesAccepting, known]

theorem accepted_steps_eq (ordered : tree.IsPreorder)
    (visited : engine.Visited tree tree.size traversal) :
    engine.acceptedSteps traversal =
      .ok (orderByKey Step.key ((finalSteps traversal).filter engine.reachesAccepting)) := by
  unfold acceptedSteps
  apply if_pos
  apply List.all_eq_true.2
  intro step member
  obtain ⟨automaton, known, -⟩ := (mem_final_steps ordered visited step).1 member
  exact decide_eq_true (Array.getElem?_eq_some_iff.1 known).1

theorem mem_accepted_iff (ordered : tree.IsPreorder)
    (visited : engine.Visited tree tree.size traversal) (step : Step) :
    step ∈ orderByKey Step.key ((finalSteps traversal).filter engine.reachesAccepting) ↔
      engine.Finishes tree step := by
  rw [mem_order_by_key fun _ _ => Step.key_injective, List.mem_filter,
    mem_final_steps ordered visited]
  constructor
  · intro accepted
    obtain ⟨⟨automaton, known, fills, passes⟩, accepts⟩ := accepted
    rw [engine.reaches_accepting_iff known] at accepts
    exact ⟨automaton, known, fills, passes, accepts⟩
  · intro ends
    obtain ⟨automaton, known, fills, passes, accepts⟩ := ends
    rw [engine.reaches_accepting_iff known]
    exact ⟨⟨automaton, known, fills, passes⟩, accepts⟩

theorem ends_match_iff (ordered : tree.IsPreorder)
    (visited : engine.Visited tree tree.size traversal) (step : Step) :
    engine.EndsMatch traversal step ↔ engine.Finishes tree step := by
  have sameTree := visited.sameTree
  subst sameTree
  have rootFills := ordered.root_fills
  constructor
  · intro ends
    obtain ⟨automaton, known, earlier, last, run⟩ := ends
    have advances := (ordered.cut_iff _).1 run.cut
    obtain ⟨before, fills⟩ := ordered.split_last rootFills advances
    have position := run.position
    rw [visited.position_of fills.lt_size, Option.some.injEq] at position
    subst position
    have previous := run.previous
    rw [visited.last_position before.members_known] at previous
    have passes := (Automaton.passes_iff step).2
      ⟨rfl, rfl, earlier, before, previous, run.source, run.target⟩
    exact ⟨automaton, known, fills, passes, run.accepting⟩
  · intro finishes
    obtain ⟨automaton, known, fills, passes, accepts⟩ := finishes
    obtain ⟨-, -, earlier, before, last, source, target⟩ := (Automaton.passes_iff step).1 passes
    have advances := before.append (.past fills (.refl _))
    refine ⟨automaton, known, earlier, step.position, ?_, source, target, accepts, ?_, ?_, ?_⟩
    · exact (ordered.cut_iff _).2 advances
    · exact visited.position_of fills.lt_size
    · rw [visited.last_position before.members_known, last]
    · rw [last, List.getLast?_eq_none_iff]

/-- Every node has its index as its position, and what is accepted is exactly the last steps of the
matches along cuts of the root. -/
theorem accepted_steps_end_matches (engine : Engine κ) {tree : Tree π} (built : tree.Built) :
    (engine.traverse tree).InPlace tree ∧
      ∃ accepted, engine.acceptedSteps (engine.traverse tree) = .ok accepted ∧
        ∀ step, step ∈ accepted ↔ engine.EndsMatch (engine.traverse tree) step := by
  have ordered := built.is_preorder
  have visited := engine.visited_traverse ordered
  apply And.intro visited.in_place
  apply Exists.intro
  apply And.intro (accepted_steps_eq ordered visited)
  intro step
  rw [mem_accepted_iff ordered visited, ends_match_iff ordered visited]

def sumTree : Tree Unit where
  nodes := #[
    { symbol := "sum", children := [1, 2] },
    { symbol := "num", value := some "1", parent := some 0 },
    { symbol := "num", value := some "2", parent := some 0, index := 1 }]

theorem sum_tree_built : sumTree.Built :=
  .steps (show Tree.ofSteps "sum" [.leaf "num" "1", .leaf "num" "2"] = .ok sumTree from rfl)

/-- Two numbers, one after the other. The first matching transition on a 1 is the general one. -/
def twoNumbers : Engine NodeTest where
  automata := #[{
    start := 0
    accepting := .ofList [2, 3]
    table := TransitionTable.empty
      |>.add 0 (.consume { symbol := "num" }) 1
      |>.add 0 (.consume { symbol := "num", value := some "1" }) 3
      |>.add 1 (.consume { symbol := "num" }) 2 }]

theorem accepted_steps_end_matches_sum_tree :
    (twoNumbers.traverse sumTree).InPlace sumTree ∧
      twoNumbers.acceptedSteps (twoNumbers.traverse sumTree) = .ok [⟨some 1, 1, 2, 2, 0⟩] ∧
      ∀ step, twoNumbers.EndsMatch (twoNumbers.traverse sumTree) step ↔
        step = ⟨some 1, 1, 2, 2, 0⟩ := by
  have computed : twoNumbers.acceptedSteps (twoNumbers.traverse sumTree) =
      .ok [⟨some 1, 1, 2, 2, 0⟩] := by
    decide +kernel
  obtain ⟨placed, accepted, same, members⟩ := accepted_steps_end_matches twoNumbers sum_tree_built
  rw [computed, Except.ok.injEq] at same
  apply And.intro placed
  apply And.intro computed
  intro step
  rw [← members step, ← same, List.mem_singleton]

end Engine

end TreePattern
