import TreePattern.Proofs.Matching.Renaming

/-!
# Automata run side by side

An engine does with each of its automata what it would do with that automaton alone, but for the
index by which attempts and steps name it. What an earlier traversal of the tree left behind, by
whatever engine, does not show in the next one.
-/

set_option autoImplicit false

namespace TreePattern

universe u v w

abbrev Renaming.owned (index : Nat) : Renaming := .owning fun _ => index

def Engine.alone {κ : Type u} (engine : Engine κ) (automaton : Automaton κ) : Engine κ :=
  { engine with automata := #[automaton] }

variable {κ : Type u} {π : Type v} [Matches κ (Node π)]

/-- Some engines, each with automata of its own, have visited the tree or reset the traversal, any
number of times. -/
inductive Traversal.LeftOn (tree : Tree π) : Traversal π → Prop where
  | traverse {κ : Type u} [Matches κ (Node π)] (engine : Engine κ) :
      LeftOn tree (engine.traverse tree)
  | retraverse {κ : Type u} [Matches κ (Node π)] (engine : Engine κ) {earlier : Traversal π}
      (left : LeftOn tree earlier) : LeftOn tree (engine.retraverse earlier)
  | reset (automata : Nat) {earlier : Traversal π} (left : LeftOn tree earlier) :
      LeftOn tree (earlier.reset automata)

section Earlier

structure Traversal.Of (traversal : Traversal π) (tree : Tree π) : Prop where
  sameTree : traversal.tree = tree
  size : traversal.fields.size = tree.size

variable {tree : Tree π} {traversal : Traversal π}

theorem Traversal.of_blank (tree : Tree π) (automata : Nat) :
    (Traversal.blank tree automata).Of tree where
  sameTree := rfl
  size := Array.size_replicate

theorem Traversal.Of.reset (isOf : traversal.Of tree) (automata : Nat) :
    (traversal.reset automata).Of tree where
  sameTree := isOf.sameTree
  size := by
    rw [Traversal.reset, Array.size_map]
    exact isOf.size

theorem Traversal.Of.reset_eq (isOf : traversal.Of tree) (automata : Nat) :
    traversal.reset automata = .blank tree automata := by
  unfold Traversal.reset Traversal.blank
  rw [isOf.sameTree, Array.map_const', isOf.size]

theorem Traversal.Of.visit (isOf : traversal.Of tree) (engine : Engine κ) (id : Nat) :
    (engine.visit traversal id).Of tree := by
  unfold Engine.visit
  split
  · exact isOf
  · refine ⟨isOf.sameTree, ?_⟩
    rw [Array.size_setIfInBounds]
    exact isOf.size

theorem Traversal.Of.retraverse (isOf : traversal.Of tree) (engine : Engine κ) :
    (engine.retraverse traversal).Of tree := by
  have start := isOf.reset engine.automata.size
  unfold Engine.retraverse
  generalize traversal.reset engine.automata.size = blank, traversal.tree.preorder = ids at start
  induction ids generalizing blank with
  | nil => exact start
  | cons id rest induction => exact induction _ (start.visit engine id)

theorem Traversal.LeftOn.isOf (left : Traversal.LeftOn.{w} tree traversal) : traversal.Of tree := by
  induction left with
  | traverse engine => exact (Traversal.of_blank tree engine.automata.size).retraverse engine
  | retraverse engine _ isOf => exact isOf.retraverse engine
  | reset automata _ isOf => exact isOf.reset automata

/-- A new traversal shows nothing of an earlier one. -/
theorem Engine.retraverse_eq_traverse (engine : Engine κ) (isOf : traversal.Of tree) :
    engine.retraverse traversal = engine.traverse tree := by
  have blank := Traversal.of_blank tree engine.automata.size
  unfold Engine.traverse Engine.retraverse
  rw [isOf.reset_eq, blank.reset_eq, isOf.sameTree, blank.sameTree]

end Earlier

namespace Engine

variable {engine : Engine κ} {tree : Tree π} {automaton : Automaton κ} {index : Nat}

theorem mirrored_alone (preorder : tree.IsPreorder)
    (known : engine.automata[index]? = some automaton) :
    MirroredRuns (engine.alone automaton) tree engine tree automaton 0 (.owned index) where
  preorder := preorder
  otherPreorder := preorder
  known := rfl
  otherKnown := known
  policy := rfl
  mirrors := automaton.mirrors_owning tree 0

theorem Finishes.alone_owner {step : Step}
    (finishes : (engine.alone automaton).Finishes tree step) :
    step.automaton = 0 := by
  obtain ⟨other, known, -⟩ := finishes
  have bound := (Array.getElem?_eq_some_iff.1 known).1
  exact Nat.lt_one_iff.1 bound

/-- The traversal by the engine holds for its automaton number `index`, under that index, what the
traversal by the automaton alone holds, and so it is with the accepted steps and the derivations,
or what the strict policy reports in place of one. -/
structure RunsApart (engine : Engine κ) (tree : Tree π) (automaton : Automaton κ) (index : Nat) :
    Prop where
  holds : ∀ id < tree.size, ∃ attempts steps,
    ((engine.alone automaton).traverse tree).Holds id 0 attempts steps ∧
      (engine.traverse tree).Holds id index (attempts.map (Attempt.rename (.owned index)))
        (steps.map (Step.rename (.owned index)))
  owned : ∀ id attempts steps, (engine.traverse tree).Holds id index attempts steps →
    (∀ attempt ∈ attempts, attempt.automaton = index) ∧ ∀ step ∈ steps, step.automaton = index
  accepted : ∃ apart accepted,
    (engine.alone automaton).acceptedSteps ((engine.alone automaton).traverse tree) = .ok apart ∧
      engine.acceptedSteps (engine.traverse tree) = .ok accepted ∧
      accepted.filter (·.automaton = index) = apart.map (Step.rename (.owned index)) ∧
      ∀ step ∈ apart, engine.derivationOf (engine.traverse tree) (step.rename (.owned index)) =
        ((engine.alone automaton).derivationOf ((engine.alone automaton).traverse tree) step).map
          (List.map (Step.rename (.owned index)))

theorem holds_owned (preorder : tree.IsPreorder) (known : engine.automata[index]? = some automaton)
    {id : Nat} {attempts : List Attempt} {steps : List Step}
    (holds : (engine.traverse tree).Holds id index attempts steps) :
    (∀ attempt ∈ attempts, attempt.automaton = index) ∧ ∀ step ∈ steps, step.automaton = index := by
  have visited := engine.visited_traverse preorder
  obtain ⟨field, found, -⟩ := holds.field
  have bound : id < tree.size := by
    rw [← visited.size]
    exact (Array.getElem?_eq_some_iff.1 found).1
  obtain ⟨others, more, again, -, -, attemptMembers, stepMembers⟩ :=
    visited.exists_holds (engine.ordered_traverse preorder) known bound
  obtain ⟨sameAttempts, sameSteps⟩ := holds.unique again
  subst sameAttempts sameSteps
  constructor
  · exact fun attempt member => ((attemptMembers attempt).1 member).1
  · exact fun step member => ((Automaton.passes_iff step).1 ((stepMembers step).1 member)).1

theorem filter_accepted_eq (preorder : tree.IsPreorder)
    (known : engine.automata[index]? = some automaton) {apart accepted : List Step}
    (apartSorted : Increasing Step.key apart)
    (apartMembers : ∀ step, step ∈ apart ↔ (engine.alone automaton).Finishes tree step)
    (sorted : Increasing Step.key accepted)
    (members : ∀ step, step ∈ accepted ↔ engine.Finishes tree step) :
    accepted.filter (·.automaton = index) = apart.map (Step.rename (.owned index)) := by
  have runs := mirrored_alone preorder known
  apply apartSorted.eq_map_steps (sorted.filter _)
  · exact fun step member => ((apartMembers step).1 member).alone_owner
  · intro step
    rw [List.mem_filter, decide_eq_true_eq, members]
    constructor
    · intro kept
      obtain ⟨finishes, owner⟩ := kept
      obtain ⟨original, -, originalFinishes, same⟩ := (runs.finishes_iff owner).1 finishes
      exact ⟨original, (apartMembers original).2 originalFinishes, same⟩
    · intro renamed
      obtain ⟨original, member, same⟩ := renamed
      have finishes := (apartMembers original).1 member
      have owner : step.automaton = index := by
        rw [← same, Step.rename_owning]
      exact ⟨(runs.finishes_iff owner).2 ⟨original, finishes.alone_owner, finishes, same⟩, owner⟩

/-- Automata that run side by side do not interfere, and nothing of an earlier traversal of the tree
shows in the next one, whatever engines left it and whatever resets came between. -/
theorem automata_run_apart (engine : Engine κ) {tree : Tree π} (built : tree.Built) {index : Nat}
    {automaton : Automaton κ} (known : engine.automata[index]? = some automaton) :
    engine.RunsApart tree automaton index ∧
      ∀ earlier : Traversal π, Traversal.LeftOn.{w} tree earlier →
        engine.retraverse earlier = engine.traverse tree := by
  have preorder := built.is_preorder
  have runs := mirrored_alone preorder known
  constructor
  · constructor
    · intro id bound
      exact runs.exists_holds bound
    · intro id attempts steps holds
      exact holds_owned preorder known holds
    · obtain ⟨apart, apartFound, apartSorted, apartMembers⟩ :=
        (engine.alone automaton).exists_accepted preorder
      obtain ⟨accepted, found, sorted, members⟩ := engine.exists_accepted preorder
      refine ⟨apart, accepted, apartFound, found,
        filter_accepted_eq preorder known apartSorted apartMembers sorted members, ?_⟩
      intro step member
      have finishes := (apartMembers step).1 member
      have owner := finishes.alone_owner
      obtain ⟨-, passes, -⟩ := (finishes_iff (by rw [owner]; exact runs.known)).1 finishes
      rw [owner] at passes
      exact (runs.derivation_of passes).eq_map_owning
  · intro earlier left
    exact engine.retraverse_eq_traverse left.isOf

def wholeSum : Automaton NodeTest where
  start := 0
  accepting := .ofList [1]
  table := TransitionTable.empty.add 0 (.consume { symbol := "sum" }) 1

def wholeOrParts : Engine NodeTest where
  automata := #[wholeSum] ++ twoNumbers.automata

theorem automata_run_apart_whole_or_parts :
    sumTree.Built ∧ ∃ parts, wholeOrParts.automata[1]? = some parts ∧
      wholeOrParts.acceptedSteps (wholeOrParts.traverse sumTree) =
        .ok [⟨none, 0, 0, 1, 0⟩, ⟨some 1, 1, 2, 2, 1⟩] ∧
      (wholeOrParts.alone parts).acceptedSteps ((wholeOrParts.alone parts).traverse sumTree) =
        .ok [⟨some 1, 1, 2, 2, 0⟩] ∧
      wholeOrParts.RunsApart sumTree parts 1 ∧
      wholeOrParts.retraverse ((twoNumbers.traverse sumTree).reset 5) =
        wholeOrParts.traverse sumTree := by
  have left : Traversal.LeftOn sumTree ((twoNumbers.traverse sumTree).reset 5) :=
    .reset 5 (.traverse twoNumbers)
  obtain ⟨apart, again⟩ :=
    automata_run_apart wholeOrParts sum_tree_built
      (show wholeOrParts.automata[1]? = some _ from rfl)
  refine ⟨sum_tree_built, _, rfl, ?_, ?_, apart, again _ left⟩
  · decide +kernel
  · decide +kernel

end Engine

end TreePattern
