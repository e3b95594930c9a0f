import Mathlib.Data.List.Chain
import TreePattern.Matching.Derivation
import TreePattern.Proofs.Matching.Visits

/-!
# Chains of recorded steps

A recorded step either starts a match or continues a recorded step at a smaller position, so going
back from it always ends at a start. The positions of such a chain lead to the edge in front of the
last one, and its states are those of the run along them.
-/

set_option autoImplicit false

namespace TreePattern

universe u v w

structure Step.HandsTo (earlier later : Step) : Prop where
  position : later.last = some earlier.position
  state : later.source = earlier.target

theorem is_chain_concat {steps : List Step} {earlier step : Step}
    (linked : steps.IsChain Step.HandsTo) (ends : steps.getLast? = some earlier)
    (hands : earlier.HandsTo step) : (steps ++ [step]).IsChain Step.HandsTo := by
  apply List.isChain_append.2
  refine ⟨linked, .singleton step, ?_⟩
  intro last isLast later isLater
  rw [ends] at isLast
  cases isLast
  cases isLater
  exact hands

variable {κ : Type u} {π : Type v} [Matches κ (Node π)]

/-- The steps lead from a start to the given step, each of them being one that belongs to its node
and to the automaton. -/
inductive Automaton.Chain (automaton : Automaton κ) (tree : Tree π) (index : Nat) :
    List Step → Step → Prop where
  | first {step : Step} (passes : automaton.Passes tree index step.position step)
      (fresh : step.last = none) : Chain automaton tree index [step] step
  | next {steps : List Step} {earlier step : Step}
      (chain : Chain automaton tree index steps earlier) (hands : earlier.HandsTo step)
      (passes : automaton.Passes tree index step.position step) :
      Chain automaton tree index (steps ++ [step]) step

namespace Automaton

variable {automaton : Automaton κ} {tree : Tree π} {index : Nat}

theorem Passes.split {step : Step} {id position : Nat}
    (passes : automaton.Passes tree index id step) (last : step.last = some position) :
    ∃ before middle, tree.Advances 0 before position ∧
      automaton.runAlong tree automaton.start (before ++ [position]) = some step.source ∧
      tree.Fills position middle ∧ tree.Advances middle [] id := by
  obtain ⟨-, -, nodes, advances, isLast, run, -⟩ := (passes_iff step).1 passes
  rw [last, eq_comm, List.getLast?_eq_some_iff] at isLast
  obtain ⟨before, whole⟩ := isLast
  subst whole
  obtain ⟨early, middle, fills, rest⟩ := advances.split_member
  exact ⟨before, middle, early, run, fills, rest⟩

theorem Passes.predecessor {step : Step} {id position : Nat}
    (passes : automaton.Passes tree index id step) (last : step.last = some position) :
    position < id ∧ ∃ earlier, automaton.Passes tree index position earlier ∧
      earlier.HandsTo step := by
  obtain ⟨before, middle, early, run, fills, rest⟩ := passes.split last
  obtain ⟨source, node, earlierRun, -, -⟩ := (run_along_concat ..).1 run
  constructor
  · exact Nat.lt_of_lt_of_le fills.lt_stop rest.start_le_stop
  · refine ⟨⟨before.getLast?, source, position, step.source, index⟩, ?_, last, rfl⟩
    exact (passes_iff _).2 ⟨rfl, rfl, before, early, rfl, earlierRun, run⟩

theorem Passes.begins {step : Step} {id : Nat} (passes : automaton.Passes tree index id step)
    (fresh : step.last = none) : step.source = automaton.start ∧ tree.Advances 0 [] id := by
  obtain ⟨-, -, nodes, advances, last, run, -⟩ := (passes_iff step).1 passes
  rw [fresh, eq_comm, List.getLast?_eq_none_iff] at last
  subst last
  exact ⟨(Option.some.inj run).symm, advances⟩

theorem Passes.moves {step : Step} {id : Nat} (passes : automaton.Passes tree index id step) :
    ∃ node, tree.get? id = some node ∧
      automaton.destination? step.source node = some step.target := by
  obtain ⟨attempt, node, target, -, found, moved, rfl⟩ := passes
  exact ⟨node, found, moved⟩

namespace Chain

variable {steps : List Step} {step : Step}

theorem passes (chain : automaton.Chain tree index steps step) :
    automaton.Passes tree index step.position step := by
  cases chain with
  | first passes => exact passes
  | next _ _ passes => exact passes

theorem last_step (chain : automaton.Chain tree index steps step) :
    steps.getLast? = some step := by
  cases chain with
  | first => rfl
  | next => exact List.getLast?_concat

theorem start_step (chain : automaton.Chain tree index steps step) :
    ∃ first, steps.head? = some first ∧ first.last = none ∧ first.source = automaton.start := by
  induction chain with
  | @first step passes fresh => exact ⟨step, rfl, fresh, (passes.begins fresh).1⟩
  | @next steps earlier step _ _ _ induction =>
      obtain ⟨first, head, fresh, start⟩ := induction
      have stillHead : (steps ++ [step]).head? = some first := by
        rw [List.head?_append, head]
        rfl
      exact ⟨first, stillHead, fresh, start⟩

/-- Positions grow along a chain, so it has at most one step for each position up to its last. -/
theorem length_le (chain : automaton.Chain tree index steps step) :
    steps.length ≤ step.position + 1 := by
  induction chain with
  | first => exact Nat.le_add_left 1 _
  | @next steps earlier step _ hands passes induction =>
      have before := (passes.predecessor hands.position).1
      rw [List.length_append, List.length_singleton]
      omega

theorem linked (chain : automaton.Chain tree index steps step) : steps.IsChain Step.HandsTo := by
  induction chain with
  | first => exact .singleton _
  | next chain hands _ linked => exact is_chain_concat linked chain.last_step hands

theorem same_automaton (chain : automaton.Chain tree index steps step) :
    ∀ member ∈ steps, member.automaton = index := by
  induction chain with
  | @first step passes _ =>
      intro member isMember
      rw [List.mem_singleton.1 isMember]
      exact ((passes_iff step).1 passes).1
  | @next steps earlier step _ _ passes induction =>
      intro member isMember
      rcases List.mem_append.1 isMember with before | last
      · exact induction member before
      · rw [List.mem_singleton.1 last]
        exact ((passes_iff step).1 passes).1

theorem advances (chain : automaton.Chain tree index steps step) {stop : Nat}
    (fills : tree.Fills step.position stop) :
    tree.Advances 0 (steps.map (·.position)) stop := by
  induction chain generalizing stop with
  | first passes fresh => exact (passes.begins fresh).2.append (.past fills (.refl stop))
  | next _ hands passes induction =>
      obtain ⟨-, middle, -, -, earlierFills, between⟩ := passes.split hands.position
      rw [List.map_append]
      exact (induction earlierFills).append (between.append (.past fills (.refl stop)))

theorem run (chain : automaton.Chain tree index steps step) :
    automaton.runAlong tree automaton.start (steps.map (·.position)) = some step.target := by
  induction chain with
  | @first step passes fresh =>
      obtain ⟨node, found, moved⟩ := passes.moves
      have start := (passes.begins fresh).1
      exact (run_along_concat automaton tree automaton.start [] step.position step.target).2
        ⟨step.source, node, congrArg some start.symm, found, moved⟩
  | @next steps earlier step _ hands passes induction =>
      obtain ⟨node, found, moved⟩ := passes.moves
      rw [← hands.state] at induction
      rw [List.map_append]
      exact (run_along_concat ..).2 ⟨step.source, node, induction, found, moved⟩

end Chain

end Automaton

namespace Engine

variable {engine : Engine κ} {tree : Tree π} {traversal : Traversal π}

theorem mem_predecessors (visited : engine.Visited tree tree.size traversal) {step : Step}
    {automaton : Automaton κ} (known : engine.automata[step.automaton]? = some automaton)
    {position : Nat} (bound : position < tree.size) :
    ∃ steps, predecessors traversal step position = .ok steps ∧
      ∀ earlier, earlier ∈ steps ↔
        automaton.Passes tree step.automaton position earlier ∧ earlier.target = step.source := by
  obtain ⟨field, found, records⟩ := visited.records position bound
  obtain ⟨steps, listed, members⟩ := records.steps step.automaton automaton known
  unfold predecessors
  rw [visited.node_at bound]
  simp only [found, Option.bind_some, listed]
  refine ⟨_, rfl, ?_⟩
  intro earlier
  simp only [List.mem_filter, Bool.and_eq_true, decide_eq_true_eq, members]
  constructor
  · intro kept
    exact ⟨kept.1, kept.2.2⟩
  · intro hands
    exact ⟨hands.1, ((Automaton.passes_iff earlier).1 hands.1).2.1, hands.2⟩

theorem exists_predecessor (visited : engine.Visited tree tree.size traversal) {step : Step}
    {automaton : Automaton κ} (known : engine.automata[step.automaton]? = some automaton)
    (passes : automaton.Passes tree step.automaton step.position step) {position : Nat}
    (last : step.last = some position) :
    ∃ found others, predecessors traversal step position = .ok (found :: others) ∧
      found.position < step.position ∧ found.HandsTo step ∧
      automaton.Passes tree step.automaton found.position found := by
  obtain ⟨before, earlier, earlierPasses, hands⟩ := passes.predecessor last
  obtain ⟨node, present, -⟩ := passes.moves
  have bound := Nat.lt_trans before (Tree.lt_size_of_found present)
  obtain ⟨steps, listed, members⟩ := mem_predecessors visited known bound
  cases steps with
  | nil =>
      have member := (members earlier).2 ⟨earlierPasses, hands.state.symm⟩
      exact absurd member List.not_mem_nil
  | cons found others =>
      obtain ⟨foundPasses, state⟩ := (members found).1 List.mem_cons_self
      have same := ((Automaton.passes_iff found).1 foundPasses).2.1
      subst same
      exact ⟨found, others, listed, before, ⟨last, state.symm⟩, foundPasses⟩

/-- Under the first policy, going back from a recorded step never gets stuck and ends at a start,
also for an engine that did not record it. -/
theorem follow_back_chain {ι : Type w} {follower : Engine ι}
    (visited : engine.Visited tree tree.size traversal) (policy : follower.policy = .first)
    {automaton : Automaton κ} {index : Nat} (known : engine.automata[index]? = some automaton)
    (count : Nat) (step : Step) (later : List Step)
    (passes : automaton.Passes tree index step.position step) (enough : step.position < count) :
    ∃ steps, follower.followBack traversal count step later = .ok (steps ++ later) ∧
      automaton.Chain tree index steps step := by
  induction count generalizing step later with
  | zero => omega
  | succ count induction =>
      unfold followBack
      cases last : step.last with
      | none => exact ⟨[step], rfl, .first passes last⟩
      | some position =>
          have named := ((Automaton.passes_iff step).1 passes).1
          subst named
          obtain ⟨found, others, listed, before, hands, foundPasses⟩ :=
            exists_predecessor visited known passes last
          obtain ⟨steps, followed, chain⟩ := induction found (step :: later) foundPasses (by omega)
          simp only [listed, policy, reduceCtorEq, false_and, if_false]
          rw [followed, List.append_cons]
          exact ⟨steps ++ [step], rfl, .next chain hands passes⟩

end Engine

end TreePattern
