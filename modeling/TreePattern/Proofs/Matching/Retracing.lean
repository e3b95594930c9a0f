import TreePattern.Proofs.Matching.Chains
import TreePattern.Proofs.Matching.RecordOrder

/-!
# Going back along recorded steps

Going back from a recorded step takes the least of the steps that hand off to it. Of all chains that
end in the step it finds the least one, when chains are compared from the last step backwards. Under
the strict policy it stops at the first step that has several predecessors; behind that step all
chains are the same, and if there is no such step, there is only one chain.
-/

set_option autoImplicit false

namespace TreePattern

universe u v

def Step.origin (step : Step) : List Nat := [positionKey step.last, step.source]

/-- Chains are compared by the origins of their steps, from the last step backwards. -/
def backwardKey (steps : List Step) : List Nat := steps.reverse.flatMap Step.origin

theorem backward_key_concat (steps : List Step) (step : Step) :
    backwardKey (steps ++ [step]) = step.origin ++ backwardKey steps := by
  simp [backwardKey]

theorem Step.origin_append_lt {first second : Step} (smaller : first.key < second.key)
    (position : first.position = second.position) (target : first.target = second.target)
    (owner : first.automaton = second.automaton) (firstRest secondRest : List Nat) :
    first.origin ++ firstRest < second.origin ++ secondRest := by
  simp only [key, position, target, owner, List.cons_lt_cons_iff, lt_self_iff_false, and_false,
    or_false] at smaller
  simp only [origin, List.cons_append, List.nil_append, List.cons_lt_cons_iff]
  rcases smaller with last | state
  · exact Or.inl last
  · exact Or.inr ⟨state.1, Or.inl state.2⟩

variable {κ : Type u} {π : Type v} [Matches κ (Node π)]

namespace Automaton

variable {automaton : Automaton κ} {tree : Tree π} {index : Nat} {step : Step}

def Precedes (automaton : Automaton κ) (tree : Tree π) (index : Nat) (earlier step : Step) : Prop :=
  automaton.Passes tree index earlier.position earlier ∧ earlier.HandsTo step

def Forks (automaton : Automaton κ) (tree : Tree π) (index : Nat) (step : Step) : Prop :=
  ∃ first second, first ≠ second ∧ automaton.Precedes tree index first step ∧
    automaton.Precedes tree index second step

structure LeastChain (automaton : Automaton κ) (tree : Tree π) (index : Nat) (steps : List Step)
    (step : Step) : Prop where
  chain : automaton.Chain tree index steps step
  least : ∀ other, automaton.Chain tree index other step → other ≠ steps →
    backwardKey steps < backwardKey other

/-- The chains to `step` part in front of `fork`, and behind it they are all the same. -/
structure PartsAt (automaton : Automaton κ) (tree : Tree π) (index : Nat) (step fork : Step)
    (later : List Step) : Prop where
  forks : automaton.Forks tree index fork
  single : ∀ member ∈ later, ¬ automaton.Forks tree index member
  shared : ∀ steps, automaton.Chain tree index steps step ↔
    ∃ front, automaton.Chain tree index front fork ∧ steps = front ++ later

theorem Chain.member_passes {steps : List Step} (chain : automaton.Chain tree index steps step) :
    ∀ member ∈ steps, automaton.Passes tree index member.position member := by
  induction chain with
  | first passes =>
      intro member isMember
      rw [List.mem_singleton.1 isMember]
      exact passes
  | next _ _ passes induction =>
      intro member isMember
      rcases List.mem_append.1 isMember with before | isLast
      · exact induction member before
      · rw [List.mem_singleton.1 isLast]
        exact passes

theorem Passes.lt_of_hands {earlier : Step}
    (passes : automaton.Passes tree index step.position step) (hands : earlier.HandsTo step) :
    earlier.position < step.position :=
  (passes.predecessor hands.position).1

/-- Going back from a recorded step always ends at a start. -/
theorem Passes.exists_chain (passes : automaton.Passes tree index step.position step) :
    ∃ steps, automaton.Chain tree index steps step := by
  generalize place : step.position = position at passes
  induction position using Nat.strongRecOn generalizing step with
  | ind position induction =>
      subst place
      cases last : step.last with
      | none => exact ⟨[step], .first passes last⟩
      | some position =>
          obtain ⟨before, earlier, earlierPasses, hands⟩ := passes.predecessor last
          have same := ((passes_iff earlier).1 earlierPasses).2.1
          obtain ⟨steps, chain⟩ := induction position before same earlierPasses
          exact ⟨steps ++ [step], .next chain hands passes⟩

theorem chain_iff_of_fresh (passes : automaton.Passes tree index step.position step)
    (fresh : step.last = none) (steps : List Step) :
    automaton.Chain tree index steps step ↔ steps = [step] := by
  constructor
  · intro chain
    cases chain with
    | first => rfl
    | next _ hands =>
        have last := hands.position
        rw [fresh] at last
        cases last
  · intro single
    subst single
    exact .first passes fresh

theorem chain_iff_of_last (passes : automaton.Passes tree index step.position step)
    {position : Nat} (last : step.last = some position) (steps : List Step) :
    automaton.Chain tree index steps step ↔
      ∃ earlier front, automaton.Precedes tree index earlier step ∧
        automaton.Chain tree index front earlier ∧ steps = front ++ [step] := by
  constructor
  · intro chain
    cases chain with
    | first _ fresh =>
        rw [last] at fresh
        cases fresh
    | next chain hands => exact ⟨_, _, ⟨chain.passes, hands⟩, chain, rfl⟩
  · intro extended
    obtain ⟨earlier, front, precedes, chain, whole⟩ := extended
    rw [whole]
    exact .next chain precedes.2 passes

theorem chain_iff_of_single (passes : automaton.Passes tree index step.position step)
    {earlier : Step} (precedes : automaton.Precedes tree index earlier step)
    (single : ∀ other, automaton.Precedes tree index other step → other = earlier)
    (steps : List Step) :
    automaton.Chain tree index steps step ↔
      ∃ front, automaton.Chain tree index front earlier ∧ steps = front ++ [step] := by
  rw [chain_iff_of_last passes precedes.2.position]
  constructor
  · intro extended
    obtain ⟨other, front, otherPrecedes, chain, whole⟩ := extended
    rw [single other otherPrecedes] at chain
    exact ⟨front, chain, whole⟩
  · intro extended
    obtain ⟨front, chain, whole⟩ := extended
    exact ⟨earlier, front, precedes, chain, whole⟩

/-- Chains to different predecessors of one step compare as the predecessors do. -/
theorem backward_key_lt {firstSteps secondSteps : List Step} {first second : Step}
    (firstChain : automaton.Chain tree index firstSteps first)
    (secondChain : automaton.Chain tree index secondSteps second) (firstHands : first.HandsTo step)
    (secondHands : second.HandsTo step) (smaller : first.key < second.key) :
    backwardKey firstSteps < backwardKey secondSteps := by
  obtain ⟨firstFront, firstWhole⟩ := List.getLast?_eq_some_iff.1 firstChain.last_step
  obtain ⟨secondFront, secondWhole⟩ := List.getLast?_eq_some_iff.1 secondChain.last_step
  rw [firstWhole, secondWhole, backward_key_concat, backward_key_concat]
  apply Step.origin_append_lt smaller
  · exact Option.some.inj (firstHands.position.symm.trans secondHands.position)
  · exact firstHands.state.symm.trans secondHands.state
  · have firstOwner := ((passes_iff first).1 firstChain.passes).1
    have secondOwner := ((passes_iff second).1 secondChain.passes).1
    exact firstOwner.trans secondOwner.symm

theorem LeastChain.next {steps : List Step} {earlier : Step}
    (leastChain : automaton.LeastChain tree index steps earlier)
    (passes : automaton.Passes tree index step.position step)
    (hands : earlier.HandsTo step)
    (least : ∀ other, automaton.Precedes tree index other step → other ≠ earlier →
      earlier.key < other.key) :
    automaton.LeastChain tree index (steps ++ [step]) step where
  chain := .next leastChain.chain hands passes
  least other chain different := by
    obtain ⟨otherEarlier, front, precedes, frontChain, whole⟩ :=
      (chain_iff_of_last passes hands.position other).1 chain
    subst whole
    rw [backward_key_concat, backward_key_concat]
    apply List.append_left_lt
    by_cases same : otherEarlier = earlier
    · subst same
      apply leastChain.least front frontChain
      intro sameFront
      exact different (congrArg (· ++ [step]) sameFront)
    · exact backward_key_lt leastChain.chain frontChain hands precedes.2
        (least otherEarlier precedes same)

theorem PartsAt.next {earlier fork : Step} {later : List Step}
    (parts : automaton.PartsAt tree index earlier fork later)
    (passes : automaton.Passes tree index step.position step)
    (precedes : automaton.Precedes tree index earlier step)
    (single : ∀ other, automaton.Precedes tree index other step → other = earlier) :
    automaton.PartsAt tree index step fork (later ++ [step]) where
  forks := parts.forks
  single member isMember := by
    rcases List.mem_append.1 isMember with before | isLast
    · exact parts.single member before
    · rw [List.mem_singleton.1 isLast]
      intro forks
      obtain ⟨first, second, different, firstPrecedes, secondPrecedes⟩ := forks
      exact different ((single first firstPrecedes).trans (single second secondPrecedes).symm)
  shared steps := by
    rw [chain_iff_of_single passes precedes single]
    constructor
    · intro extended
      obtain ⟨middle, chain, whole⟩ := extended
      obtain ⟨front, frontChain, middleWhole⟩ := (parts.shared middle).1 chain
      refine ⟨front, frontChain, ?_⟩
      rw [whole, middleWhole, List.append_assoc]
    · intro extended
      obtain ⟨front, frontChain, whole⟩ := extended
      refine ⟨front ++ later, (parts.shared _).2 ⟨front, frontChain, rfl⟩, ?_⟩
      rw [whole, List.append_assoc]

theorem PartsAt.not_unique {fork : Step} {later : List Step}
    (parts : automaton.PartsAt tree index step fork later) :
    ¬ ∃ steps, automaton.Chain tree index steps step ∧
      ∀ other, automaton.Chain tree index other step → other = steps := by
  intro unique
  obtain ⟨steps, chain, only⟩ := unique
  obtain ⟨front, forkChain, -⟩ := (parts.shared steps).1 chain
  obtain ⟨first, second, different, firstPrecedes, secondPrecedes⟩ := parts.forks
  obtain ⟨firstSteps, firstChain⟩ := firstPrecedes.1.exists_chain
  obtain ⟨secondSteps, secondChain⟩ := secondPrecedes.1.exists_chain
  have firstWhole := only _ ((parts.shared _).2
    ⟨firstSteps ++ [fork], .next firstChain firstPrecedes.2 forkChain.passes, rfl⟩)
  have secondWhole := only _ ((parts.shared _).2
    ⟨secondSteps ++ [fork], .next secondChain secondPrecedes.2 forkChain.passes, rfl⟩)
  have same : firstSteps = secondSteps :=
    List.append_cancel_right (List.append_cancel_right (firstWhole.trans secondWhole.symm))
  have firstLast := firstChain.last_step
  rw [same, secondChain.last_step] at firstLast
  exact different (Option.some.inj firstLast).symm

theorem PartsAt.here (forks : automaton.Forks tree index step) :
    automaton.PartsAt tree index step step [] where
  forks := forks
  single member isMember := absurd isMember List.not_mem_nil
  shared steps := by
    simp only [List.append_nil, exists_eq_right']

theorem LeastChain.of_fresh (passes : automaton.Passes tree index step.position step)
    (fresh : step.last = none) : automaton.LeastChain tree index [step] step where
  chain := .first passes fresh
  least other chain different := absurd ((chain_iff_of_fresh passes fresh other).1 chain) different

end Automaton

namespace Engine

variable {engine : Engine κ} {tree : Tree π} {traversal : Traversal π}

theorem increasing_predecessors (ordered : traversal.Ordered) {step : Step} {position : Nat}
    {earlier : List Step} (listed : predecessors traversal step position = .ok earlier) :
    Increasing Step.key earlier := by
  unfold predecessors at listed
  split at listed
  · cases listed
  · split at listed
    · cases listed
    · rename_i steps found
      cases listed
      obtain ⟨field, isField, isList⟩ := Option.bind_eq_some_iff.1 found
      have sorted := (ordered field (Array.mem_of_getElem? isField)).steps steps
        (Array.mem_of_getElem? isList)
      exact List.Pairwise.filter _ sorted

/-- In front of a recorded step that is not a start, the recorded predecessors are found, the least
of them first. -/
theorem predecessors_spec (visited : engine.Visited tree tree.size traversal)
    (ordered : traversal.Ordered) {step : Step} {automaton : Automaton κ}
    (known : engine.automata[step.automaton]? = some automaton)
    (passes : automaton.Passes tree step.automaton step.position step) {position : Nat}
    (last : step.last = some position) :
    ∃ found others, predecessors traversal step position = .ok (found :: others) ∧
      Increasing Step.key (found :: others) ∧
      ∀ earlier, earlier ∈ found :: others ↔
        automaton.Precedes tree step.automaton earlier step := by
  obtain ⟨found, others, listed, before, -, foundPasses⟩ :=
    exists_predecessor visited known passes last
  refine ⟨found, others, listed, increasing_predecessors ordered listed, ?_⟩
  have bound : position < tree.size := by
    obtain ⟨node, present, -⟩ := passes.moves
    have size := Tree.lt_size_of_found present
    have behind := (passes.predecessor last).1
    omega
  obtain ⟨steps, again, members⟩ := mem_predecessors visited known bound
  rw [listed, Except.ok.injEq] at again
  subst again
  intro earlier
  rw [members]
  constructor
  · intro hands
    have same := ((Automaton.passes_iff earlier).1 hands.1).2.1
    subst same
    exact ⟨hands.1, last, hands.2.symm⟩
  · intro precedes
    have same : position = earlier.position :=
      Option.some.inj (last.symm.trans precedes.2.position)
    subst same
    exact ⟨precedes.1, precedes.2.state.symm⟩

theorem forks_of_several {automaton : Automaton κ} {index : Nat} {step found : Step}
    {others : List Step} (sorted : Increasing Step.key (found :: others))
    (members : ∀ earlier, earlier ∈ found :: others ↔ automaton.Precedes tree index earlier step)
    (several : others ≠ []) : automaton.Forks tree index step := by
  obtain ⟨second, rest, whole⟩ := List.exists_cons_of_ne_nil several
  subst whole
  refine ⟨found, second, ?_, (members found).1 List.mem_cons_self, ?_⟩
  · intro same
    have distinct := sorted.nodup
    rw [same] at distinct
    exact (List.nodup_cons.1 distinct).1 List.mem_cons_self
  · exact (members second).1 (List.mem_cons_of_mem found List.mem_cons_self)

/-- Going back gives the least chain, under the strict policy only if it is the only one; else the
strict policy reports where the chains part. -/
theorem follow_back_outcome (visited : engine.Visited tree tree.size traversal)
    (ordered : traversal.Ordered) {automaton : Automaton κ} {index : Nat}
    (known : engine.automata[index]? = some automaton) (count : Nat) (step : Step)
    (later : List Step) (passes : automaton.Passes tree index step.position step)
    (enough : step.position < count) :
    (∃ steps, engine.followBack traversal count step later = .ok (steps ++ later) ∧
      automaton.LeastChain tree index steps step ∧
        (engine.policy = .strict → ∀ other, automaton.Chain tree index other step →
          other = steps)) ∨
      (engine.policy = .strict ∧ ∃ fork behind position, fork.last = some position ∧
        automaton.PartsAt tree index step fork behind ∧
        engine.followBack traversal count step later =
          .error (.ambiguousDerivation position fork.source)) := by
  induction count generalizing step later with
  | zero => omega
  | succ count induction =>
      unfold followBack
      cases last : step.last with
      | none =>
          refine Or.inl ⟨[step], rfl, .of_fresh passes last, ?_⟩
          intro _ other chain
          exact (Automaton.chain_iff_of_fresh passes last other).1 chain
      | some position =>
          have named := ((Automaton.passes_iff step).1 passes).1
          subst named
          obtain ⟨found, others, listed, sorted, members⟩ :=
            predecessors_spec visited ordered known passes last
          have first := (members found).1 List.mem_cons_self
          have before := passes.lt_of_hands first.2
          simp only [listed]
          split
          · rename_i several
            have forks := forks_of_several sorted members several.2
            exact Or.inr ⟨several.1, step, [], position, last, .here forks, rfl⟩
          · rename_i notSeveral
            have least (other : Step)
                (precedes : automaton.Precedes tree step.automaton other step)
                (different : other ≠ found) : found.key < other.key :=
              sorted.head_lt ((members other).2 precedes) different
            have single (strict : engine.policy = .strict) (other : Step)
                (precedes : automaton.Precedes tree step.automaton other step) :
                other = found := by
              have nothing : others = [] := by
                apply Classical.byContradiction
                intro nonempty
                exact notSeveral ⟨strict, nonempty⟩
              have member := (members other).2 precedes
              rw [nothing] at member
              exact List.mem_singleton.1 member
            rcases induction found (step :: later) first.1 (by omega) with chosen | ambiguous
            · obtain ⟨steps, followed, leastChain, only⟩ := chosen
              refine Or.inl ⟨steps ++ [step], ?_, leastChain.next passes first.2 least, ?_⟩
              · rw [followed, List.append_cons]
              · intro strict other chain
                obtain ⟨front, frontChain, whole⟩ :=
                  (Automaton.chain_iff_of_single passes first (single strict) other).1 chain
                rw [whole, only strict front frontChain]
            · obtain ⟨strict, fork, behind, place, forkLast, parts, failed⟩ := ambiguous
              exact Or.inr ⟨strict, fork, behind ++ [step], place, forkLast,
                parts.next passes first (single strict), failed⟩

theorem derivation_of_outcome (visited : engine.Visited tree tree.size traversal)
    (ordered : traversal.Ordered) {automaton : Automaton κ} {step : Step}
    (known : engine.automata[step.automaton]? = some automaton)
    (passes : automaton.Passes tree step.automaton step.position step) :
    (∃ steps, engine.derivationOf traversal step = .ok steps ∧
      automaton.LeastChain tree step.automaton steps step ∧
        (engine.policy = .strict → ∀ other, automaton.Chain tree step.automaton other step →
          other = steps)) ∨
      (engine.policy = .strict ∧ ∃ fork behind position, fork.last = some position ∧
        automaton.PartsAt tree step.automaton step fork behind ∧
        engine.derivationOf traversal step =
          .error (.ambiguousDerivation position fork.source)) := by
  obtain ⟨node, present, -⟩ := passes.moves
  have bound := Tree.lt_size_of_found present
  have enough : step.position < traversal.visited.size + 1 := by
    rw [visited.visited_size]
    omega
  have outcome := follow_back_outcome visited ordered known _ step [] passes enough
  simpa only [List.append_nil, derivationOf] using outcome

end Engine

end TreePattern
