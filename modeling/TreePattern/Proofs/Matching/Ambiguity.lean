import Mathlib.Data.List.Induction
import TreePattern.Proofs.Matching.Accepted
import TreePattern.Proofs.Matching.Retracing

/-!
# What the policies return for a recorded step

The derivations of a recorded step are all chains of recorded steps of its automaton that lead to it
from a start. There is always one. The first policy returns the least of them; the strict policy
returns the only one, or else names the step nearest to the end that several recorded steps precede.
-/

set_option autoImplicit false

namespace TreePattern

universe u v

variable {κ : Type u} {π : Type v}

namespace Traversal

def Recorded (traversal : Traversal π) (step : Step) : Prop :=
  ∃ id index, step ∈ traversal.stepsAt id index

theorem mem_all_steps_of_mem {traversal : Traversal π} {step : Step} {id index : Nat}
    (member : step ∈ traversal.stepsAt id index) :
    id < traversal.fields.size ∧ step ∈ traversal.allStepsAt id := by
  unfold stepsAt at member
  cases listed : (traversal.fields[id]?).bind (·.steps[index]?) with
  | none =>
      rw [listed] at member
      exact absurd member List.not_mem_nil
  | some steps =>
      rw [listed] at member
      obtain ⟨field, found, inField⟩ := Option.bind_eq_some_iff.1 listed
      refine ⟨(Array.getElem?_eq_some_iff.1 found).1, ?_⟩
      unfold allStepsAt
      rw [found]
      have inList := Array.mem_toList_iff.2 (Array.mem_of_getElem? inField)
      exact List.mem_flatten.2 ⟨steps, inList, member⟩

structure Precedes (traversal : Traversal π) (earlier step : Step) : Prop where
  recorded : traversal.Recorded earlier
  sameAutomaton : earlier.automaton = step.automaton
  hands : earlier.HandsTo step

def Forks (traversal : Traversal π) (step : Step) : Prop :=
  ∃ first second, first ≠ second ∧ traversal.Precedes first step ∧ traversal.Precedes second step

/-- The steps are a derivation of `step`: recorded steps of its automaton, from a start to the step
itself, each of them handing off to the next. -/
structure Derivation (traversal : Traversal π) (step : Step) (steps : List Step) : Prop where
  recorded : ∀ member ∈ steps, traversal.Recorded member
  sameAutomaton : ∀ member ∈ steps, member.automaton = step.automaton
  begins : ∃ first, steps.head? = some first ∧ first.last = none
  linked : steps.IsChain Step.HandsTo
  ends : steps.getLast? = some step

def OnlyDerivation (traversal : Traversal π) (step : Step) (steps : List Step) : Prop :=
  traversal.Derivation step steps ∧ ∀ other, traversal.Derivation step other → other = steps

/-- In every derivation of `step`, the last step that several recorded steps precede is `fork`. -/
def LastFork (traversal : Traversal π) (step fork : Step) : Prop :=
  traversal.Forks fork ∧ ∃ later, (∀ member ∈ later, ¬ traversal.Forks member) ∧
    ∀ steps, traversal.Derivation step steps → ∃ front, steps = front ++ fork :: later

end Traversal

variable [Matches κ (Node π)]

namespace Engine

variable {engine : Engine κ} {tree : Tree π} {traversal : Traversal π}

theorem recorded_iff (visited : engine.Visited tree tree.size traversal) (step : Step) :
    traversal.Recorded step ↔ ∃ automaton, engine.automata[step.automaton]? = some automaton ∧
      automaton.Passes tree step.automaton step.position step := by
  constructor
  · intro recorded
    obtain ⟨id, index, member⟩ := recorded
    obtain ⟨inside, listed⟩ := Traversal.mem_all_steps_of_mem member
    have bound : id < tree.size := visited.size ▸ inside
    obtain ⟨automaton, known, passes⟩ := (visited.mem_all_steps_at bound step).1 listed
    have position := ((Automaton.passes_iff step).1 passes).2.1
    subst position
    exact ⟨automaton, known, passes⟩
  · intro belongs
    obtain ⟨automaton, known, passes⟩ := belongs
    obtain ⟨node, present, -⟩ := passes.moves
    have bound := Tree.lt_size_of_found present
    exact ⟨step.position, step.automaton, (visited.mem_steps_at bound known step).2 passes⟩

section OneAutomaton

variable {step : Step} {automaton : Automaton κ}

theorem recorded_iff_passes (visited : engine.Visited tree tree.size traversal)
    (known : engine.automata[step.automaton]? = some automaton) :
    traversal.Recorded step ↔ automaton.Passes tree step.automaton step.position step := by
  rw [recorded_iff visited]
  constructor
  · intro belongs
    obtain ⟨other, otherKnown, passes⟩ := belongs
    rw [known] at otherKnown
    cases otherKnown
    exact passes
  · intro passes
    exact ⟨automaton, known, passes⟩

theorem precedes_iff (visited : engine.Visited tree tree.size traversal)
    (known : engine.automata[step.automaton]? = some automaton) (earlier : Step) :
    traversal.Precedes earlier step ↔ automaton.Precedes tree step.automaton earlier step := by
  constructor
  · intro precedes
    have same := precedes.sameAutomaton
    have earlierKnown := same ▸ known
    have passes := (recorded_iff_passes visited earlierKnown).1 precedes.recorded
    rw [same] at passes
    exact ⟨passes, precedes.hands⟩
  · intro precedes
    have same := ((Automaton.passes_iff earlier).1 precedes.1).1
    have earlierKnown := same ▸ known
    refine ⟨(recorded_iff_passes visited earlierKnown).2 ?_, same, precedes.2⟩
    rw [same]
    exact precedes.1

theorem forks_iff (visited : engine.Visited tree tree.size traversal)
    (known : engine.automata[step.automaton]? = some automaton) :
    traversal.Forks step ↔ automaton.Forks tree step.automaton step := by
  simp only [Traversal.Forks, Automaton.Forks, precedes_iff visited known]

theorem derivation_iff (visited : engine.Visited tree tree.size traversal)
    (known : engine.automata[step.automaton]? = some automaton) (steps : List Step) :
    traversal.Derivation step steps ↔ automaton.Chain tree step.automaton steps step := by
  constructor
  · intro derivation
    induction steps using List.reverseRecOn generalizing step with
    | nil => exact absurd derivation.ends (by simp)
    | append_singleton front last induction =>
        have isLast : last = step := by simpa using derivation.ends
        subst isLast
        have passes := (recorded_iff_passes visited known).1
          (derivation.recorded last (by simp))
        cases earlierLast : front.getLast? with
        | none =>
            rw [List.getLast?_eq_none_iff] at earlierLast
            subst earlierLast
            obtain ⟨first, head, fresh⟩ := derivation.begins
            cases head
            exact .first passes fresh
        | some earlier =>
            have isMember := List.mem_of_getLast? earlierLast
            have same := derivation.sameAutomaton earlier (List.mem_append_left _ isMember)
            obtain ⟨linked, -, joint⟩ := List.isChain_append.1 derivation.linked
            have hands := joint earlier earlierLast last rfl
            have chain := @induction earlier (same ▸ known) {
              recorded := fun member inFront =>
                derivation.recorded member (List.mem_append_left _ inFront)
              sameAutomaton := fun member inFront =>
                (derivation.sameAutomaton member (List.mem_append_left _ inFront)).trans same.symm
              begins := by
                obtain ⟨first, head, fresh⟩ := derivation.begins
                refine ⟨first, ?_, fresh⟩
                rwa [List.head?_append_of_ne_nil _ (List.ne_nil_of_mem isMember)] at head
              linked := linked
              ends := earlierLast }
            rw [same] at chain
            exact .next chain hands passes
  · intro chain
    obtain ⟨first, head, fresh, -⟩ := chain.start_step
    refine ⟨?_, chain.same_automaton, ⟨first, head, fresh⟩, chain.linked, chain.last_step⟩
    intro member isMember
    have same := chain.same_automaton member isMember
    have memberKnown := same ▸ known
    apply (recorded_iff_passes visited memberKnown).2
    rw [same]
    exact chain.member_passes member isMember

theorem last_fork_of_parts_at (visited : engine.Visited tree tree.size traversal)
    (known : engine.automata[step.automaton]? = some automaton)
    (passes : automaton.Passes tree step.automaton step.position step) {fork : Step}
    {behind : List Step} (parts : automaton.PartsAt tree step.automaton step fork behind) :
    traversal.LastFork step fork := by
  obtain ⟨steps, chain⟩ := passes.exists_chain
  obtain ⟨front, forkChain, whole⟩ := (parts.shared steps).1 chain
  have owned := chain.same_automaton
  have forkOwned := owned fork (whole ▸ List.mem_append_left _
    (List.mem_of_getLast? forkChain.last_step))
  have forks := parts.forks
  rw [← forkOwned] at forks
  refine ⟨(forks_iff visited (forkOwned ▸ known)).2 forks, behind, ?_, ?_⟩
  · intro member isMember several
    have same := owned member (whole ▸ List.mem_append_right front isMember)
    have memberForks := (forks_iff visited (same ▸ known)).1 several
    rw [same] at memberForks
    exact parts.single member isMember memberForks
  · intro other derivation
    have otherChain := (derivation_iff visited known other).1 derivation
    obtain ⟨otherFront, otherForkChain, otherWhole⟩ := (parts.shared other).1 otherChain
    obtain ⟨before, ends⟩ := List.getLast?_eq_some_iff.1 otherForkChain.last_step
    exact ⟨before, by rw [otherWhole, ends, List.append_assoc, List.singleton_append]⟩

end OneAutomaton

/-- A recorded step has a derivation. The strict policy returns it if it is the only one, and else
names where the last step of all derivations that has several predecessors comes from. The first
policy returns the least derivation, compared from the last step backwards. -/
theorem derivation_of_recorded_by_policy (engine : Engine κ) {tree : Tree π} (built : tree.Built)
    {step : Step} (recorded : (engine.traverse tree).Recorded step) :
    (∃ steps, (engine.traverse tree).Derivation step steps) ∧
      (engine.policy = .strict →
        (∀ steps, engine.derivationOf (engine.traverse tree) step = .ok steps ↔
          (engine.traverse tree).OnlyDerivation step steps) ∧
        ((¬ ∃ steps, (engine.traverse tree).OnlyDerivation step steps) →
          ∃ fork position, (engine.traverse tree).LastFork step fork ∧
            fork.last = some position ∧
            engine.derivationOf (engine.traverse tree) step =
              .error (.ambiguousDerivation position fork.source))) ∧
      (engine.policy = .first →
        ∃ steps, engine.derivationOf (engine.traverse tree) step = .ok steps ∧
          (engine.traverse tree).Derivation step steps ∧
          ∀ other, (engine.traverse tree).Derivation step other → other ≠ steps →
            backwardKey steps < backwardKey other) := by
  have preorder := built.is_preorder
  have visited := engine.visited_traverse preorder
  have ordered := engine.ordered_traverse preorder
  obtain ⟨automaton, known, passes⟩ := (recorded_iff visited step).1 recorded
  have derivations := derivation_iff visited known
  have outcome := derivation_of_outcome visited ordered known passes
  simp only [Traversal.OnlyDerivation, derivations]
  refine ⟨passes.exists_chain, ?_, ?_⟩
  · intro strict
    rcases outcome with chosen | ambiguous
    · obtain ⟨steps, found, leastChain, only⟩ := chosen
      have unique := only strict
      constructor
      · intro others
        rw [found, Except.ok.injEq]
        constructor
        · intro same
          subst same
          exact ⟨leastChain.chain, unique⟩
        · intro onlyOthers
          exact onlyOthers.2 steps leastChain.chain
      · intro several
        exact absurd ⟨steps, leastChain.chain, unique⟩ several
    · obtain ⟨-, fork, behind, position, last, parts, failed⟩ := ambiguous
      constructor
      · intro steps
        rw [failed]
        constructor
        · intro impossible
          cases impossible
        · intro onlySteps
          exact absurd ⟨steps, onlySteps⟩ parts.not_unique
      · intro _
        exact ⟨fork, position, last_fork_of_parts_at visited known passes parts, last, failed⟩
  · intro first
    rcases outcome with chosen | ambiguous
    · obtain ⟨steps, found, leastChain, -⟩ := chosen
      exact ⟨steps, found, leastChain.chain, leastChain.least⟩
    · obtain ⟨strict, -⟩ := ambiguous
      rw [first] at strict
      cases strict

def forkTree : Tree Unit where
  nodes := #[
    { symbol := "root", children := [1, 3, 4] },
    { symbol := "x", children := [2], parent := some 0 },
    { symbol := "y", parent := some 1 },
    { symbol := "z", parent := some 0, index := 1 },
    { symbol := "v", parent := some 0, index := 2 }]

theorem fork_tree_built : forkTree.Built :=
  .steps (show Tree.ofSteps "root" [.node "x" [.emptyLeaf "y"], .emptyLeaf "z", .emptyLeaf "v"] =
    .ok forkTree from rfl)

/-- First `x` or `y`, each with a state of its own, then `z` and `v`. -/
def forkEngine : Engine NodeTest where
  automata := #[{
    start := 0
    accepting := .ofList [4]
    table := TransitionTable.empty
      |>.add 0 (.consume { symbol := "x" }) 1
      |>.add 0 (.consume { symbol := "y" }) 2
      |>.add 1 (.consume { symbol := "z" }) 3
      |>.add 2 (.consume { symbol := "z" }) 3
      |>.add 3 (.consume { symbol := "v" }) 4 }]
  policy := .strict

/-- The step through `z` may come from `x` or from `y`, so the step through `v` has two derivations,
which part in front of it. -/
theorem derivation_of_recorded_by_policy_fork :
    forkTree.Built ∧ (forkEngine.traverse forkTree).Recorded ⟨some 3, 3, 4, 4, 0⟩ ∧
      forkEngine.derivationOf (forkEngine.traverse forkTree) ⟨some 3, 3, 4, 4, 0⟩ =
        .error (.ambiguousDerivation 3 3) ∧
      (¬ ∃ steps, (forkEngine.traverse forkTree).OnlyDerivation ⟨some 3, 3, 4, 4, 0⟩ steps) ∧
      ∃ fork, (forkEngine.traverse forkTree).LastFork ⟨some 3, 3, 4, 4, 0⟩ fork ∧
        fork.last = some 3 ∧ fork.source = 3 := by
  have steps : (forkEngine.traverse forkTree).stepsAt 4 0 = [⟨some 3, 3, 4, 4, 0⟩] := by
    decide +kernel
  have recorded : (forkEngine.traverse forkTree).Recorded ⟨some 3, 3, 4, 4, 0⟩ :=
    ⟨4, 0, steps ▸ List.mem_singleton_self _⟩
  have failed : forkEngine.derivationOf (forkEngine.traverse forkTree) ⟨some 3, 3, 4, 4, 0⟩ =
      .error (.ambiguousDerivation 3 3) := by
    decide +kernel
  obtain ⟨-, strict, -⟩ := derivation_of_recorded_by_policy forkEngine fork_tree_built recorded
  obtain ⟨returned, ambiguous⟩ := strict rfl
  have several : ¬ ∃ steps,
      (forkEngine.traverse forkTree).OnlyDerivation ⟨some 3, 3, 4, 4, 0⟩ steps := by
    intro unique
    obtain ⟨steps, only⟩ := unique
    have found := (returned steps).2 only
    rw [failed] at found
    cases found
  obtain ⟨fork, position, lastFork, last, reported⟩ := ambiguous several
  rw [failed, Except.error.injEq, Failure.ambiguousDerivation.injEq] at reported
  refine ⟨fork_tree_built, recorded, failed, several, fork, lastFork, ?_, reported.2.symm⟩
  rw [last, reported.1]

end Engine

end TreePattern
