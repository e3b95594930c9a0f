import TreePattern.Proofs.Matching.Ambiguity
import TreePattern.Proofs.Matching.Positions

/-!
# Lookups on the way back

Going back from a step is a loop of lookups: the node at the position where the step comes from, the
steps kept there for its automaton, and among them those that hand off to it. Any engine may go
back, also from a step that was never recorded. Only the first round can fail then, because what it
finds is a recorded step, and from recorded steps the way back ends at a start.
-/

set_option autoImplicit false

namespace TreePattern

universe u v w x

/-- Going back from a step, round by round and with no bound on their number, in front of the steps
that come later: up to a start, or up to the first round that fails. -/
inductive Engine.GoesBack {ι : Type w} {π : Type v} (follower : Engine ι)
    (traversal : Traversal π) : Step → List Step → Except Failure (List Step) → Prop where
  | start {step : Step} {later : List Step} (fresh : step.last = none) :
      GoesBack follower traversal step later (.ok (step :: later))
  | lost {step : Step} {later : List Step} {position : Nat} {failure : Failure}
      (last : step.last = some position)
      (failed : predecessors traversal step position = .error failure) :
      GoesBack follower traversal step later (.error failure)
  | stuck {step : Step} {later : List Step} {position : Nat} (last : step.last = some position)
      (nothing : predecessors traversal step position = .ok []) :
      GoesBack follower traversal step later (.error (.noPredecessor step position))
  | torn {step found : Step} {later others : List Step} {position : Nat}
      (last : step.last = some position)
      (listed : predecessors traversal step position = .ok (found :: others))
      (several : follower.policy = .strict ∧ others ≠ []) :
      GoesBack follower traversal step later (.error (.ambiguousDerivation position step.source))
  | next {step found : Step} {later others : List Step} {position : Nat}
      {result : Except Failure (List Step)} (last : step.last = some position)
      (listed : predecessors traversal step position = .ok (found :: others))
      (single : ¬ (follower.policy = .strict ∧ others ≠ []))
      (rest : GoesBack follower traversal found (step :: later) result) :
      GoesBack follower traversal step later result

inductive Engine.Produces {κ : Type u} {π : Type v} [Matches κ (Node π)] (engine : Engine κ)
    (tree : Tree π) : Traversal π → Prop where
  | traverse : Produces engine tree (engine.traverse tree)
  | retraverse {earlier : Traversal π} (left : Traversal.LeftOn.{x} tree earlier) :
      Produces engine tree (engine.retraverse earlier)

namespace Traversal

variable {π : Type v}

/-- The first round of going back from the step fails: no node has the position where the step
comes from, or its automaton is none of those that were run, or no step recorded there for the
automaton ends in the state where the step starts. -/
inductive LookupFails (traversal : Traversal π) (automata : Nat) (step : Step) :
    Failure → Prop where
  | noNode {position : Nat} (last : step.last = some position)
      (unvisited : traversal.nodeOf? position = none) :
      LookupFails traversal automata step (.noNodeAt position)
  | noAutomaton {position id : Nat} (last : step.last = some position)
      (visited : traversal.nodeOf? position = some id) (unknown : automata ≤ step.automaton) :
      LookupFails traversal automata step .outOfRange
  | noStep {position id : Nat} (last : step.last = some position)
      (visited : traversal.nodeOf? position = some id) (known : step.automaton < automata)
      (nothing : ∀ earlier ∈ traversal.stepsAt id step.automaton, earlier.target ≠ step.source) :
      LookupFails traversal automata step (.noPredecessor step position)

structure Approach (traversal : Traversal π) (step : Step) (steps : List Step) : Prop where
  begins : ∃ first, steps.head? = some first ∧ first.last = none
  linked : steps.IsChain Step.HandsTo
  ends : steps.getLast? = some step
  recorded : ∀ member ∈ steps.dropLast,
    traversal.Recorded member ∧ member.automaton = step.automaton

variable {traversal : Traversal π} {earlier step : Step} {steps : List Step}

theorem Approach.of_fresh (fresh : step.last = none) : traversal.Approach step [step] where
  begins := ⟨step, rfl, fresh⟩
  linked := .singleton step
  ends := rfl
  recorded _ impossible := absurd impossible List.not_mem_nil

theorem Derivation.approach (derivation : traversal.Derivation earlier steps)
    (hands : earlier.HandsTo step) (sameAutomaton : earlier.automaton = step.automaton) :
    traversal.Approach step (steps ++ [step]) where
  begins := by
    obtain ⟨first, head, fresh⟩ := derivation.begins
    refine ⟨first, ?_, fresh⟩
    rw [List.head?_append, head]
    rfl
  linked := is_chain_concat derivation.linked derivation.ends hands
  ends := List.getLast?_concat
  recorded := by
    rw [List.dropLast_concat]
    intro member isMember
    exact ⟨derivation.recorded member isMember,
      (derivation.sameAutomaton member isMember).trans sameAutomaton⟩

end Traversal

namespace Engine

/-- A counted way back is the way back, unless it uses its count up. -/
theorem follow_back_goes_back {ι : Type w} {π : Type v} (follower : Engine ι)
    (traversal : Traversal π) (count : Nat) (step : Step) (later : List Step) :
    follower.GoesBack traversal step later (follower.followBack traversal count step later) ∨
      ∃ steps, follower.followBack traversal count step later = .ok (steps ++ later) ∧
        steps.length = count + 1 := by
  induction count generalizing step later with
  | zero => exact Or.inr ⟨[step], rfl, rfl⟩
  | succ count induction =>
      unfold followBack
      cases last : step.last with
      | none => exact Or.inl (.start last)
      | some position =>
          simp only
          cases listed : predecessors traversal step position with
          | error failure => exact Or.inl (.lost last listed)
          | ok earlier =>
              cases earlier with
              | nil => exact Or.inl (.stuck last listed)
              | cons found others =>
                  simp only
                  split
                  · rename_i several
                    exact Or.inl (.torn last listed several)
                  · rename_i single
                    rcases induction found (step :: later) with ended | usedUp
                    · exact Or.inl (.next last listed single ended)
                    · obtain ⟨steps, followed, length⟩ := usedUp
                      refine Or.inr ⟨steps ++ [step], ?_, ?_⟩
                      · rw [followed, List.append_cons]
                      · rw [List.length_append, length, List.length_singleton]

theorem GoesBack.unique {ι : Type w} {π : Type v} {follower : Engine ι}
    {traversal : Traversal π} {step : Step} {later : List Step}
    {first second : Except Failure (List Step)}
    (goesFirst : follower.GoesBack traversal step later first)
    (goesSecond : follower.GoesBack traversal step later second) : first = second := by
  induction goesFirst with
  | start => cases goesSecond <;> simp_all
  | lost => cases goesSecond <;> simp_all
  | stuck => cases goesSecond <;> simp_all
  | torn => cases goesSecond <;> simp_all
  | next _ _ _ _ induction =>
      cases goesSecond with
      | next _ _ _ rest => exact induction (by simp_all)
      | _ => simp_all

variable {κ : Type u} {ι : Type w} {π : Type v} [Matches κ (Node π)]
variable {engine : Engine κ} {follower : Engine ι} {tree : Tree π} {traversal : Traversal π}

theorem Produces.visited (produced : Engine.Produces.{u, v, x} engine tree traversal)
    (preorder : tree.IsPreorder) : engine.Visited tree tree.size traversal := by
  cases produced with
  | traverse => exact engine.visited_traverse preorder
  | retraverse left =>
      rw [engine.retraverse_eq_traverse left.isOf]
      exact engine.visited_traverse preorder

section Lookup

variable {step : Step} {position : Nat}

theorem Visited.node_of_iff (visited : engine.Visited tree tree.size traversal) (id : Nat) :
    traversal.nodeOf? position = some id ↔ position < tree.size ∧ position = id := by
  rw [visited.node_eq]
  split <;> simp_all

theorem predecessors_of_unknown (visited : engine.Visited tree tree.size traversal)
    (bound : position < tree.size) (unknown : engine.automata.size ≤ step.automaton) :
    predecessors traversal step position = .error .outOfRange := by
  obtain ⟨field, found, records⟩ := visited.records position bound
  have noList : field.steps[step.automaton]? = none := by
    apply Array.getElem?_eq_none
    rw [records.stepLists]
    exact unknown
  unfold predecessors
  rw [visited.node_at bound]
  simp only [found, Option.bind_some, noList]

theorem mem_predecessors_iff (visited : engine.Visited tree tree.size traversal)
    (bound : position < tree.size) (known : step.automaton < engine.automata.size) :
    ∃ steps, predecessors traversal step position = .ok steps ∧
      ∀ earlier, earlier ∈ steps ↔
        earlier ∈ traversal.stepsAt position step.automaton ∧ earlier.target = step.source := by
  have found := Array.getElem?_eq_getElem known
  obtain ⟨steps, listed, members⟩ := mem_predecessors visited found bound
  refine ⟨steps, listed, ?_⟩
  intro earlier
  rw [members, visited.mem_steps_at bound found]

theorem predecessors_of_lookup_fails (visited : engine.Visited tree tree.size traversal)
    {failure : Failure} (fails : traversal.LookupFails engine.automata.size step failure) :
    ∃ position, step.last = some position ∧
      (predecessors traversal step position = .error failure ∨
        predecessors traversal step position = .ok [] ∧
          failure = .noPredecessor step position) := by
  cases fails with
  | @noNode position last unvisited =>
      refine ⟨position, last, Or.inl ?_⟩
      unfold predecessors Traversal.nodeAt
      rw [unvisited]
  | @noAutomaton position id last isNode unknown =>
      have bound := ((visited.node_of_iff id).1 isNode).1
      exact ⟨position, last, Or.inl (predecessors_of_unknown visited bound unknown)⟩
  | @noStep position id last isNode known nothing =>
      obtain ⟨bound, same⟩ := (visited.node_of_iff id).1 isNode
      subst same
      obtain ⟨steps, listed, members⟩ := mem_predecessors_iff visited bound known
      have empty : steps = [] := by
        apply List.eq_nil_iff_forall_not_mem.2
        intro earlier member
        obtain ⟨recorded, target⟩ := (members earlier).1 member
        exact nothing earlier recorded target
      subst empty
      exact ⟨position, last, Or.inr ⟨listed, rfl⟩⟩

theorem derivation_of_lookup_fails (visited : engine.Visited tree tree.size traversal)
    {failure : Failure} (fails : traversal.LookupFails engine.automata.size step failure) :
    follower.derivationOf traversal step = .error failure := by
  obtain ⟨position, last, failed | nothing⟩ := predecessors_of_lookup_fails visited fails
  · unfold derivationOf followBack
    simp only [last, failed]
  · unfold derivationOf followBack
    simp only [last, nothing.1, nothing.2]

theorem derivation_of_found (visited : engine.Visited tree tree.size traversal)
    (policy : follower.policy = .first) (last : step.last = some position)
    (bound : position < tree.size) {automaton : Automaton κ}
    (known : engine.automata[step.automaton]? = some automaton) {found : Step} {others : List Step}
    (listed : predecessors traversal step position = .ok (found :: others)) :
    ∃ steps, follower.derivationOf traversal step = .ok steps ∧ traversal.Approach step steps ∧
      steps.length ≤ tree.size + 1 := by
  obtain ⟨steps, again, members⟩ := mem_predecessors visited known bound
  rw [listed, Except.ok.injEq] at again
  subst again
  obtain ⟨passes, target⟩ := (members found).1 List.mem_cons_self
  obtain ⟨owner, place, -⟩ := (Automaton.passes_iff found).1 passes
  subst place
  -- The step itself need not be recorded, but what was found is, so from there on the way is known.
  rw [← owner] at known passes
  obtain ⟨front, followed, chain⟩ := follow_back_chain visited policy known
    traversal.visited.size found [step] passes (visited.visited_size ▸ bound)
  have derivation := (derivation_iff visited known front).2 chain
  have length := chain.length_le
  refine ⟨front ++ [step], ?_, derivation.approach ⟨last, target.symm⟩ owner, ?_⟩
  · unfold derivationOf followBack
    simp only [last, listed, policy, reduceCtorEq, false_and, if_false]
    exact followed
  · rw [List.length_append, List.length_singleton]
    omega

theorem exists_approach (visited : engine.Visited tree tree.size traversal)
    (policy : follower.policy = .first)
    (nothingFails : ¬ ∃ failure, traversal.LookupFails engine.automata.size step failure) :
    ∃ steps, follower.derivationOf traversal step = .ok steps ∧ traversal.Approach step steps ∧
      steps.length ≤ tree.size + 1 := by
  cases last : step.last with
  | none =>
      refine ⟨[step], ?_, .of_fresh last, Nat.le_add_left 1 _⟩
      unfold derivationOf followBack
      simp only [last]
  | some position =>
      have isNode : traversal.nodeOf? position ≠ none := by
        intro unvisited
        exact nothingFails ⟨_, .noNode last unvisited⟩
      obtain ⟨id, isNode⟩ := Option.ne_none_iff_exists'.1 isNode
      obtain ⟨bound, same⟩ := (visited.node_of_iff id).1 isNode
      subst same
      have known : step.automaton < engine.automata.size := by
        apply Nat.lt_of_not_le
        intro unknown
        exact nothingFails ⟨_, .noAutomaton last isNode unknown⟩
      obtain ⟨steps, listed, members⟩ := mem_predecessors_iff visited bound known
      cases steps with
      | nil =>
          have nothing : ∀ earlier ∈ traversal.stepsAt position step.automaton,
              earlier.target ≠ step.source := by
            intro earlier recorded target
            exact absurd ((members earlier).2 ⟨recorded, target⟩) List.not_mem_nil
          exact absurd ⟨_, .noStep last isNode known nothing⟩ nothingFails
      | cons found others =>
          exact derivation_of_found visited policy last bound (Array.getElem?_eq_getElem known)
            listed

theorem not_lookup_fails_of_found (visited : engine.Visited tree tree.size traversal)
    (last : step.last = some position) {found : Step} {others : List Step}
    (listed : predecessors traversal step position = .ok (found :: others)) :
    ¬ ∃ failure, traversal.LookupFails engine.automata.size step failure := by
  intro someFails
  obtain ⟨failure, fails⟩ := someFails
  obtain ⟨place, isLast, lookup⟩ := predecessors_of_lookup_fails visited fails
  rw [last, Option.some.injEq] at isLast
  subst isLast
  rw [listed] at lookup
  rcases lookup with failed | nothing
  · cases failed
  · cases nothing.1

theorem derivation_fails_iff (visited : engine.Visited tree tree.size traversal)
    (policy : follower.policy = .first) (failure : Failure) :
    follower.derivationOf traversal step = .error failure ↔
      traversal.LookupFails engine.automata.size step failure := by
  constructor
  · intro failed
    by_cases someFails : ∃ other, traversal.LookupFails engine.automata.size step other
    · obtain ⟨other, fails⟩ := someFails
      rw [derivation_of_lookup_fails visited fails, Except.error.injEq] at failed
      exact failed ▸ fails
    · obtain ⟨steps, returned, -⟩ := exists_approach visited policy someFails
      rw [returned] at failed
      cases failed
  · exact derivation_of_lookup_fails visited

/-- The count of a derivation is never used up, since its steps come from different positions. -/
theorem derivation_goes_back (visited : engine.Visited tree tree.size traversal)
    (policy : follower.policy = .first) :
    follower.GoesBack traversal step [] (follower.derivationOf traversal step) := by
  rcases follow_back_goes_back follower traversal (traversal.visited.size + 1) step [] with
    ended | usedUp
  · exact ended
  · obtain ⟨steps, followed, used⟩ := usedUp
    rw [← derivationOf, List.append_nil] at followed
    have nothingFails :
        ¬ ∃ failure, traversal.LookupFails engine.automata.size step failure := by
      intro someFails
      obtain ⟨failure, fails⟩ := someFails
      rw [derivation_of_lookup_fails visited fails] at followed
      cases followed
    obtain ⟨others, returned, -, short⟩ := exists_approach visited policy nothingFails
    rw [followed, Except.ok.injEq] at returned
    rw [← returned, used, visited.visited_size] at short
    omega

end Lookup

/-- Whatever step the way back begins with, and whichever engine with the first policy goes back,
the way back ends, and its one result is the derivation. It fails exactly where its first round
does, so it never fails once a predecessor was found, and else it returns the steps from a start to
the step, all of them recorded but for the step itself. -/
theorem way_back_fails_only_at_first_lookup (engine : Engine κ) {tree : Tree π}
    (built : tree.Built) {traversal : Traversal π}
    (produced : Engine.Produces.{u, v, x} engine tree traversal) (follower : Engine ι)
    (policy : follower.policy = .first) (step : Step) :
    (∀ result, follower.GoesBack traversal step [] result ↔
        result = follower.derivationOf traversal step) ∧
      (∀ failure, follower.derivationOf traversal step = .error failure ↔
        traversal.LookupFails engine.automata.size step failure) ∧
      (∀ position found others, step.last = some position →
        predecessors traversal step position = .ok (found :: others) →
        ∃ steps, follower.derivationOf traversal step = .ok steps) ∧
      ((¬ ∃ failure, traversal.LookupFails engine.automata.size step failure) →
        ∃ steps, follower.derivationOf traversal step = .ok steps ∧
          traversal.Approach step steps) := by
  have visited := produced.visited built.is_preorder
  have ends : follower.GoesBack traversal step [] (follower.derivationOf traversal step) :=
    derivation_goes_back visited policy
  refine ⟨?_, derivation_fails_iff visited policy, ?_, ?_⟩
  · intro result
    constructor
    · intro goesBack
      exact goesBack.unique ends
    · intro same
      exact same ▸ ends
  · intro position found others last listed
    obtain ⟨steps, returned, -⟩ :=
      exists_approach visited policy (not_lookup_fails_of_found visited last listed)
    exact ⟨steps, returned⟩
  · intro nothingFails
    obtain ⟨steps, returned, approach, -⟩ := exists_approach visited policy nothingFails
    exact ⟨steps, returned, approach⟩

def bareEngine : Engine NodeTest := {}

def forkTraversal : Traversal Unit :=
  forkEngine.retraverse ((twoNumbers.traverse forkTree).reset 5)

/-- Four steps that nobody recorded: the first comes from behind the tree, the second belongs to no
automaton, the third starts in a state that was not reached, and the last goes on behind `z`. -/
theorem way_back_fails_only_at_first_lookup_unrecorded :
    forkTree.Built ∧ Engine.Produces.{0, 0, 0} forkEngine forkTree forkTraversal ∧
      bareEngine.policy = .first ∧
      forkTraversal.LookupFails 1 ⟨some 5, 3, 9, 9, 0⟩ (.noNodeAt 5) ∧
      forkTraversal.LookupFails 1 ⟨some 3, 3, 9, 9, 1⟩ .outOfRange ∧
      forkTraversal.LookupFails 1 ⟨some 3, 2, 9, 9, 0⟩
        (.noPredecessor ⟨some 3, 2, 9, 9, 0⟩ 3) ∧
      forkTraversal.Approach ⟨some 3, 3, 9, 9, 0⟩
        [⟨none, 0, 1, 1, 0⟩, ⟨some 1, 1, 3, 3, 0⟩, ⟨some 3, 3, 9, 9, 0⟩] := by
  have produced : Engine.Produces.{0, 0, 0} forkEngine forkTree forkTraversal :=
    .retraverse (.reset 5 (.traverse twoNumbers))
  have wayBack := way_back_fails_only_at_first_lookup forkEngine fork_tree_built produced bareEngine
    rfl
  refine ⟨fork_tree_built, produced, rfl, ?_, ?_, ?_, ?_⟩
  · exact ((wayBack _).2.1 _).1 (by decide +kernel)
  · exact ((wayBack _).2.1 _).1 (by decide +kernel)
  · exact ((wayBack _).2.1 _).1 (by decide +kernel)
  · obtain ⟨-, fails, -, approached⟩ := wayBack ⟨some 3, 3, 9, 9, 0⟩
    have returned : bareEngine.derivationOf forkTraversal ⟨some 3, 3, 9, 9, 0⟩ =
        .ok [⟨none, 0, 1, 1, 0⟩, ⟨some 1, 1, 3, 3, 0⟩, ⟨some 3, 3, 9, 9, 0⟩] := by
      decide +kernel
    have nothingFails :
        ¬ ∃ failure, forkTraversal.LookupFails 1 ⟨some 3, 3, 9, 9, 0⟩ failure := by
      intro someFails
      obtain ⟨failure, lookup⟩ := someFails
      have failed := (fails failure).2 lookup
      rw [returned] at failed
      cases failed
    obtain ⟨steps, again, approach⟩ := approached nothingFails
    rw [returned, Except.ok.injEq] at again
    exact again ▸ approach

end Engine

end TreePattern
