import Mathlib.Data.List.Induction
import TreePattern.Proofs.Matching.Accepted
import TreePattern.Proofs.Matching.Retracing

/-!
# Matches along cuts are chains of recorded steps

An automaton matches a tree along a cut of the root if its run by first matching transitions gets
past all nodes of the cut and ends in an accepting state. The positions of a chain that ends with
the tree are such a cut, each such cut is the positions of one chain, and no two chains have the
same positions.
-/

set_option autoImplicit false

namespace TreePattern

universe u v

variable {κ : Type u} {π : Type v} [Matches κ (Node π)]

/-- The nodes are a cut of the root along which first matching transitions lead the automaton to an
accepting state. -/
structure Automaton.MatchesAlong (automaton : Automaton κ) (tree : Tree π) (nodes : List Nat) :
    Prop where
  cut : tree.Cut Tree.root nodes
  accepted : ∃ target, automaton.runAlong tree automaton.start nodes = some target ∧
    automaton.isAccepting target = true

namespace Automaton

variable {automaton : Automaton κ} {tree : Tree π} {index : Nat}

theorem Chain.matches_along {steps : List Step} {step : Step} (preorder : tree.IsPreorder)
    (chain : automaton.Chain tree index steps step) (fills : tree.Fills step.position tree.size)
    (accepting : automaton.isAccepting step.target = true) :
    automaton.MatchesAlong tree (steps.map (·.position)) where
  cut := (preorder.cut_iff _).2 (chain.advances fills)
  accepted := ⟨step.target, chain.run, accepting⟩

theorem exists_chain_along {nodes : List Nat} {id target : Nat}
    (advances : tree.Advances 0 nodes id)
    (run : automaton.runAlong tree automaton.start (nodes ++ [id]) = some target) (index : Nat) :
    ∃ steps step, automaton.Chain tree index steps step ∧
      steps.map (·.position) = nodes ++ [id] ∧ step.position = id ∧ step.target = target := by
  obtain ⟨source, node, before, -, -⟩ := (run_along_concat ..).1 run
  have passes : automaton.Passes tree index id ⟨nodes.getLast?, source, id, target, index⟩ :=
    (passes_iff _).2 ⟨rfl, rfl, nodes, advances, rfl, before, run⟩
  induction nodes using List.reverseRecOn generalizing id source target node with
  | nil => exact ⟨_, ⟨none, source, id, target, index⟩, .first passes rfl, rfl, rfl, rfl⟩
  | append_singleton front last induction =>
      have whole : tree.Advances 0 (front ++ last :: []) id := advances
      obtain ⟨early, -⟩ := whole.split_member
      obtain ⟨earlySource, lastNode, earlyRun, -, -⟩ := (run_along_concat ..).1 before
      obtain ⟨steps, step, chain, positions, position, reached⟩ :=
        induction early before earlySource lastNode earlyRun ((passes_iff _).2
          ⟨rfl, rfl, front, early, rfl, earlyRun, before⟩)
      have hands : step.HandsTo ⟨(front ++ [last]).getLast?, source, id, target, index⟩ := by
        refine ⟨?_, reached.symm⟩
        rw [List.getLast?_concat, position]
      refine ⟨_, _, .next chain hands passes, ?_, rfl, rfl⟩
      rw [List.map_append, positions]
      rfl

/-- Every match along a cut is recorded by a chain that ends with the tree. -/
theorem MatchesAlong.exists_chain {nodes : List Nat} (preorder : tree.IsPreorder)
    (along : automaton.MatchesAlong tree nodes) (index : Nat) :
    ∃ steps step, automaton.Chain tree index steps step ∧ steps.map (·.position) = nodes ∧
      tree.Fills step.position tree.size ∧ automaton.isAccepting step.target = true := by
  obtain ⟨target, run, accepting⟩ := along.accepted
  have advances := (preorder.cut_iff nodes).1 along.cut
  obtain ⟨earlier, last, whole, -, -⟩ :=
    (preorder.advances_stop_iff preorder.root_fills _).1 advances
  subst whole
  obtain ⟨before, fills⟩ := preorder.split_last preorder.root_fills advances
  obtain ⟨steps, step, chain, positions, position, reached⟩ := exists_chain_along before run index
  subst position reached
  exact ⟨steps, step, chain, positions, fills, accepting⟩

theorem Passes.eq_of_origin {step other : Step}
    (passes : automaton.Passes tree index step.position step)
    (otherPasses : automaton.Passes tree index other.position other)
    (position : step.position = other.position) (last : step.last = other.last)
    (source : step.source = other.source) : step = other := by
  obtain ⟨node, found, moved⟩ := passes.moves
  obtain ⟨otherNode, otherFound, otherMoved⟩ := otherPasses.moves
  rw [position, otherFound] at found
  cases found
  rw [source, otherMoved] at moved
  have target := Option.some.inj moved
  have owner := ((passes_iff step).1 passes).1.trans ((passes_iff other).1 otherPasses).1.symm
  cases step
  cases other
  simp only at position last source target owner
  rw [position, last, source, target, owner]

theorem Chain.ne_nil {steps : List Step} {step : Step}
    (chain : automaton.Chain tree index steps step) : steps ≠ [] := by
  intro blank
  have last := chain.last_step
  rw [blank] at last
  cases last

theorem Chain.eq_of_positions {steps others : List Step} {step other : Step}
    (chain : automaton.Chain tree index steps step)
    (otherChain : automaton.Chain tree index others other)
    (same : steps.map (·.position) = others.map (·.position)) : steps = others := by
  induction chain generalizing others other with
  | @first step passes fresh =>
      cases otherChain with
      | first otherPasses otherFresh =>
          have position := List.singleton_inj.1 same
          have start := (passes.begins fresh).1.trans (otherPasses.begins otherFresh).1.symm
          have equal := passes.eq_of_origin otherPasses position (fresh.trans otherFresh.symm) start
          rw [equal]
      | next front =>
          have size := congrArg List.length same
          have nonempty := List.length_pos_iff.2 front.ne_nil
          simp only [List.length_map, List.length_append, List.length_singleton] at size
          omega
  | @next steps earlier step chain hands passes induction =>
      cases otherChain with
      | first =>
          have size := congrArg List.length same
          have nonempty := List.length_pos_iff.2 chain.ne_nil
          simp only [List.length_map, List.length_append, List.length_singleton] at size
          omega
      | next otherFront otherHands otherPasses =>
          rw [List.map_append, List.map_append] at same
          obtain ⟨sameFront, samePosition⟩ := List.append_inj' same rfl
          have front := induction otherFront sameFront
          subst front
          have sameEarlier := chain.last_step.symm.trans otherFront.last_step
          cases sameEarlier
          have equal := passes.eq_of_origin otherPasses (List.singleton_inj.1 samePosition)
            (hands.position.trans otherHands.position.symm)
            (hands.state.trans otherHands.state.symm)
          rw [equal]

end Automaton

namespace Engine

variable {engine : Engine κ} {tree : Tree π}

theorem finishes_iff {step : Step} {automaton : Automaton κ}
    (known : engine.automata[step.automaton]? = some automaton) :
    engine.Finishes tree step ↔ tree.Fills step.position tree.size ∧
      automaton.Passes tree step.automaton step.position step ∧
      automaton.isAccepting step.target = true := by
  simp only [Finishes, known, Option.some.injEq, exists_eq_left']

theorem Finishes.exists_match {step : Step} (preorder : tree.IsPreorder)
    (finishes : engine.Finishes tree step) {automaton : Automaton κ}
    (known : engine.automata[step.automaton]? = some automaton) :
    ∃ steps, automaton.Chain tree step.automaton steps step ∧
      automaton.MatchesAlong tree (steps.map (·.position)) := by
  obtain ⟨fills, passes, accepting⟩ := (finishes_iff known).1 finishes
  obtain ⟨steps, chain⟩ := passes.exists_chain
  exact ⟨steps, chain, chain.matches_along preorder fills accepting⟩

theorem exists_finishing_chain (preorder : tree.IsPreorder) {index : Nat}
    {automaton : Automaton κ} (known : engine.automata[index]? = some automaton)
    {nodes : List Nat} (along : automaton.MatchesAlong tree nodes) :
    ∃ steps step, automaton.Chain tree index steps step ∧ steps.map (·.position) = nodes ∧
      engine.Finishes tree step ∧ step.automaton = index := by
  obtain ⟨steps, step, chain, positions, fills, accepting⟩ := along.exists_chain preorder index
  have owner := ((Automaton.passes_iff step).1 chain.passes).1
  subst owner
  exact ⟨steps, step, chain, positions, ⟨automaton, known, fills, chain.passes, accepting⟩, rfl⟩

/-- An automaton has a last step of a match just if it matches along some cut. -/
theorem exists_finishes_iff (preorder : tree.IsPreorder) {index : Nat} {automaton : Automaton κ}
    (known : engine.automata[index]? = some automaton) :
    (∃ step, engine.Finishes tree step ∧ step.automaton = index) ↔
      ∃ nodes, automaton.MatchesAlong tree nodes := by
  constructor
  · intro finished
    obtain ⟨step, finishes, owner⟩ := finished
    subst owner
    obtain ⟨steps, -, along⟩ := finishes.exists_match preorder known
    exact ⟨_, along⟩
  · intro matched
    obtain ⟨nodes, along⟩ := matched
    obtain ⟨-, step, -, -, finishes, owner⟩ := exists_finishing_chain preorder known along
    exact ⟨step, finishes, owner⟩

end Engine

end TreePattern
