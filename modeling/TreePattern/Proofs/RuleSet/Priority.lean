import TreePattern.Proofs.Matching.Derivations
import TreePattern.Proofs.Matching.Renaming
import TreePattern.Proofs.RuleSet.Rules

/-!
# The earliest rule that matches

Of all steps that finish a match, a rule set picks one of the earliest rule, and of its steps the
one with the least key. Rules that are added come behind, so the same step is picked with them as
without, and going back from it leads along the same steps.
-/

set_option autoImplicit false

namespace TreePattern

universe u v w

/-- Steps of earlier automata come first, and steps of one automaton in the order of their keys. -/
def Step.Before (first second : Step) : Prop :=
  first.automaton < second.automaton ∨
    first.automaton = second.automaton ∧ first.key < second.key

theorem Step.Before.asymm {first second : Step} (before : first.Before second) :
    ¬ second.Before first := by
  intro after
  rcases before with smaller | ⟨same, smaller⟩
  · rcases after with back | ⟨same, -⟩
    · omega
    · omega
  · rcases after with back | ⟨-, back⟩
    · omega
    · exact lt_asymm smaller back

namespace RuleSet

theorem earliest_cases {steps : List Step} (sorted : Increasing Step.key steps) :
    steps = [] ∧ earliest? steps = none ∨
      ∃ step ∈ steps, earliest? steps = some step ∧
        ∀ other ∈ steps, other = step ∨ step.Before other := by
  induction steps with
  | nil => exact Or.inl ⟨rfl, rfl⟩
  | cons first rest induction =>
      obtain ⟨smaller, restSorted⟩ := List.pairwise_cons.1 sorted
      refine Or.inr ?_
      rcases induction restSorted with ⟨nothing, blank⟩ | ⟨best, inRest, found, least⟩
      · subst nothing
        refine ⟨first, List.mem_cons_self, rfl, ?_⟩
        intro other member
        exact Or.inl (List.mem_singleton.1 member)
      · unfold earliest?
        simp only [found]
        split
        · rename_i earlier
          refine ⟨best, List.mem_cons_of_mem first inRest, rfl, ?_⟩
          intro other member
          rcases List.mem_cons.1 member with isFirst | otherInRest
          · rw [isFirst]
            exact Or.inr (Or.inl earlier)
          · exact least other otherInRest
        · rename_i notEarlier
          refine ⟨first, List.mem_cons_self, rfl, ?_⟩
          intro other member
          rcases List.mem_cons.1 member with isFirst | otherInRest
          · exact Or.inl isFirst
          · -- nothing in the rest has a smaller index than its best step, and all keys are larger
            have notBefore : best.automaton ≤ other.automaton := by
              rcases least other otherInRest with same | before | ⟨same, -⟩
              · rw [same]
              · omega
              · omega
            rcases Nat.lt_or_ge first.automaton other.automaton with before | notAfter
            · exact Or.inr (Or.inl before)
            · exact Or.inr (Or.inr ⟨by omega, smaller other otherInRest⟩)

end RuleSet

variable {κ : Type u} {π : Type v} {ρ : Type w} [Matches κ (Node π)]

namespace Engine

variable {engine : Engine κ} {tree : Tree π} {traversal : Traversal π} {step : Step}

structure Picks (engine : Engine κ) (tree : Tree π) (step : Step) : Prop where
  finishes : engine.Finishes tree step
  least : ∀ other, engine.Finishes tree other → other = step ∨ step.Before other

theorem Picks.unique {other : Step} (picks : engine.Picks tree step)
    (otherPicks : engine.Picks tree other) : other = step := by
  rcases picks.least other otherPicks.finishes with same | before
  · exact same
  · rcases otherPicks.least step picks.finishes with same | after
    · exact same.symm
    · exact absurd after before.asymm

theorem earliest_accepted (preorder : tree.IsPreorder)
    (visited : engine.Visited tree tree.size traversal) :
    ∃ accepted, engine.acceptedSteps traversal = .ok accepted ∧
      ((∀ step, ¬ engine.Finishes tree step) ∧ RuleSet.earliest? accepted = none ∨
        ∃ step, engine.Picks tree step ∧ RuleSet.earliest? accepted = some step) := by
  refine ⟨_, accepted_steps_eq preorder visited, ?_⟩
  have sorted := increasing_order_by_key (fun _ _ => Step.key_injective)
    ((finalSteps traversal).filter engine.reachesAccepting)
  have members := mem_accepted_iff preorder visited
  rcases RuleSet.earliest_cases sorted with ⟨nothing, blank⟩ | ⟨step, member, found, least⟩
  · refine Or.inl ⟨?_, blank⟩
    intro step finishes
    have member := (members step).2 finishes
    rw [nothing] at member
    exact List.not_mem_nil member
  · refine Or.inr ⟨step, ⟨(members step).1 member, ?_⟩, found⟩
    intro other finishes
    exact least other ((members other).2 finishes)

theorem Finishes.exists_picks (preorder : tree.IsPreorder) (finishes : engine.Finishes tree step) :
    ∃ picked, engine.Picks tree picked := by
  have visited := engine.visited_traverse preorder
  obtain ⟨accepted, -, outcome⟩ := earliest_accepted preorder visited
  rcases outcome with ⟨nothing, -⟩ | ⟨picked, picks, -⟩
  · exact absurd finishes (nothing step)
  · exact ⟨picked, picks⟩

end Engine

namespace RuleSet

variable {rules later : RuleSet κ π ρ} {tree : Tree π}

theorem apply_of_nothing_finishes (rules : RuleSet κ π ρ) (preorder : tree.IsPreorder)
    (nothing : ∀ step, ¬ rules.engine.Finishes tree step) :
    rules.apply tree = .error .noRuleMatched := by
  obtain ⟨accepted, same, unmatched | matched⟩ :=
    Engine.earliest_accepted preorder (rules.engine.visited_traverse preorder)
  · simp only [apply, same, unmatched.2]
  · obtain ⟨step, picks, -⟩ := matched
    exact absurd picks.finishes (nothing step)

variable [BEq κ] {settings : Settings} {list more : List (Rule κ π ρ)} {step : Step}

/-- The rule of the picked step acts on the nodes that the derivation of the step consumes. -/
theorem Holds.apply_of_picks (holds : rules.Holds settings list) (preorder : tree.IsPreorder)
    (picks : rules.engine.Picks tree step) {rule : Rule κ π ρ}
    (listed : list[step.automaton]? = some rule) :
    rules.apply tree = (rules.engine.derivationOf (rules.engine.traverse tree) step).map
      fun steps => rule.action tree (steps.map (·.position)) := by
  have visited := rules.engine.visited_traverse preorder
  have ordered := rules.engine.ordered_traverse preorder
  obtain ⟨accepted, same, unmatched | matched⟩ := Engine.earliest_accepted preorder visited
  · exact absurd picks.finishes (unmatched.1 step)
  · obtain ⟨found, foundPicks, isFound⟩ := matched
    rw [picks.unique foundPicks] at isFound
    obtain ⟨automaton, known, -, passes, -⟩ := picks.finishes
    simp only [apply, same, isFound]
    rcases Engine.derivation_of_outcome visited ordered known passes with chosen | ambiguous
    · obtain ⟨steps, derived, leastChain, -⟩ := chosen
      have bound (member : Step) (isMember : member ∈ steps) : member.position < tree.size := by
        have moves := (leastChain.chain.member_passes member isMember).moves
        obtain ⟨node, present, -⟩ := moves
        exact Tree.lt_size_of_found present
      simp only [derived, Engine.consumed_nodes_eq visited bound, holds.action_eq listed]
      rfl
    · obtain ⟨-, fork, -, position, -, -, failed⟩ := ambiguous
      simp only [failed]
      rfl

theorem Holds.exists_earliest (holds : rules.Holds settings list) (preorder : tree.IsPreorder)
    (picks : rules.engine.Picks tree step) :
    ∃ rule, Rule.Earliest settings list tree step.automaton rule := by
  obtain ⟨automaton, known, -⟩ := picks.finishes
  obtain ⟨rule, listed, -⟩ := (holds.automaton_iff step.automaton automaton).1 known
  refine ⟨rule, listed, (holds.applies_iff preorder listed).2 ⟨step, picks.finishes, rfl⟩, ?_⟩
  intro earlier member applies
  obtain ⟨index, bound, same⟩ := List.mem_take_iff_getElem.1 member
  have place : index < step.automaton ∧ index < list.length := Nat.lt_min.1 bound
  have earlierListed : list[index]? = some earlier := by
    rw [List.getElem?_eq_getElem place.2, same]
  obtain ⟨other, finishes, owner⟩ := (holds.applies_iff preorder earlierListed).1 applies
  rcases picks.least other finishes with isPicked | before | ⟨sameOwner, -⟩
  · rw [isPicked] at owner
    omega
  · omega
  · omega

theorem Holds.exists_finishes (holds : rules.Holds settings list) (preorder : tree.IsPreorder)
    {rule : Rule κ π ρ} (member : rule ∈ list) (applies : rule.Applies settings tree) :
    ∃ step, rules.engine.Finishes tree step := by
  obtain ⟨index, listed⟩ := List.mem_iff_getElem?.1 member
  obtain ⟨step, finishes, -⟩ := (holds.applies_iff preorder listed).1 applies
  exact ⟨step, finishes⟩

/-- What applying the rules comes to when the step is picked: its rule is the earliest that applies,
and acts along a chain to the step, under the strict policy along the only one. -/
theorem Holds.apply_outcome (holds : rules.Holds settings list) (preorder : tree.IsPreorder)
    (picks : rules.engine.Picks tree step) {automaton : Automaton κ}
    (known : rules.engine.automata[step.automaton]? = some automaton) :
    ∃ rule, Rule.Earliest settings list tree step.automaton rule ∧
      ((∃ steps, rule.MatchesAlong settings tree (steps.map (·.position)) ∧
          rules.apply tree = .ok (rule.action tree (steps.map (·.position))) ∧
          (settings.policy = .strict →
            ∀ other, automaton.Chain tree step.automaton other step → other = steps)) ∨
        settings.policy = .strict ∧ ∃ position state,
          rules.apply tree = .error (.ambiguousDerivation position state)) := by
  have visited := rules.engine.visited_traverse preorder
  have ordered := rules.engine.ordered_traverse preorder
  obtain ⟨rule, earliest⟩ := holds.exists_earliest preorder picks
  refine ⟨rule, earliest, ?_⟩
  rw [holds.apply_of_picks preorder picks earliest.listed]
  obtain ⟨fills, passes, accepting⟩ := (Engine.finishes_iff known).1 picks.finishes
  rcases Engine.derivation_of_outcome visited ordered known passes with chosen | ambiguous
  · obtain ⟨steps, derived, leastChain, only⟩ := chosen
    have along := leastChain.chain.matches_along preorder fills accepting
    refine Or.inl ⟨steps, ?_, ?_, ?_⟩
    · exact (holds.matches_along_iff earliest.listed known tree _).2 along
    · rw [derived]
      rfl
    · intro strict
      exact only (holds.policy.trans strict)
  · obtain ⟨strict, fork, -, position, -, -, failed⟩ := ambiguous
    refine Or.inr ⟨holds.policy.symm.trans strict, position, fork.source, ?_⟩
    rw [failed]
    rfl

theorem Holds.apply_eq_none_iff (holds : rules.Holds settings list) (preorder : tree.IsPreorder) :
    rules.apply tree = .error .noRuleMatched ↔ ∀ rule ∈ list, ¬ rule.Applies settings tree := by
  constructor
  · intro unmatched rule member applies
    obtain ⟨finished, finishes⟩ := holds.exists_finishes preorder member applies
    obtain ⟨step, picks⟩ := finishes.exists_picks preorder
    obtain ⟨automaton, known, -⟩ := picks.finishes
    obtain ⟨earliest, -, outcome⟩ := holds.apply_outcome preorder picks known
    rw [unmatched] at outcome
    rcases outcome with ⟨steps, -, impossible, -⟩ | ⟨-, position, state, impossible⟩
    · cases impossible
    · cases impossible
  · intro nothing
    apply rules.apply_of_nothing_finishes preorder
    intro finished finishes
    obtain ⟨step, picks⟩ := finishes.exists_picks preorder
    obtain ⟨rule, earliest⟩ := holds.exists_earliest preorder picks
    exact nothing rule (List.mem_of_getElem? earliest.listed) earliest.applies

theorem Holds.finishes_later (holds : rules.Holds settings list)
    (laterHolds : later.Holds settings (list ++ more)) {step : Step}
    (bound : step.automaton < list.length) :
    later.engine.Finishes tree step ↔ rules.engine.Finishes tree step := by
  unfold Engine.Finishes
  rw [holds.automaton_stays laterHolds bound]

theorem Holds.lt_length (holds : rules.Holds settings list)
    (finishes : rules.engine.Finishes tree step) : step.automaton < list.length := by
  obtain ⟨automaton, known, -⟩ := finishes
  obtain ⟨rule, listed, -⟩ := (holds.automaton_iff step.automaton automaton).1 known
  exact (List.getElem?_eq_some_iff.1 listed).1

theorem Holds.picks_later (holds : rules.Holds settings list)
    (laterHolds : later.Holds settings (list ++ more)) (picks : rules.engine.Picks tree step) :
    later.engine.Picks tree step := by
  have bound := holds.lt_length picks.finishes
  refine ⟨(holds.finishes_later laterHolds bound).2 picks.finishes, ?_⟩
  intro other finishes
  rcases Nat.lt_or_ge other.automaton list.length with old | isNew
  · exact picks.least other ((holds.finishes_later laterHolds old).1 finishes)
  · exact Or.inr (Or.inl (Nat.lt_of_lt_of_le bound isNew))

/-- Adding rules changes nothing on a tree that some rule applies to already. -/
theorem Holds.apply_later (holds : rules.Holds settings list)
    (laterHolds : later.Holds settings (list ++ more)) (preorder : tree.IsPreorder)
    (picks : rules.engine.Picks tree step) : later.apply tree = rules.apply tree := by
  obtain ⟨rule, earliest⟩ := holds.exists_earliest preorder picks
  have bound := (List.getElem?_eq_some_iff.1 earliest.listed).1
  have laterListed : (list ++ more)[step.automaton]? = some rule :=
    (List.getElem?_append_left bound).trans earliest.listed
  obtain ⟨automaton, known, -, passes, -⟩ := picks.finishes
  have laterKnown := (holds.automaton_stays laterHolds bound).trans known
  have same : later.engine.derivationOf (later.engine.traverse tree) step =
      rules.engine.derivationOf (rules.engine.traverse tree) step := by
    apply Engine.derivation_of_eq preorder _ known laterKnown passes
    exact laterHolds.policy.trans holds.policy.symm
  have laterPicks := holds.picks_later laterHolds picks
  rw [laterHolds.apply_of_picks preorder laterPicks laterListed, same,
    holds.apply_of_picks preorder picks earliest.listed]

/-- Nothing is found just if no rule applies. Under the first policy, the earliest rule that applies
acts on the nodes of a cut that its automaton matches. Rules that are added behind a rule that
applies change nothing, also under the strict policy. -/
theorem earliest_rule_acts (settings : Settings) {list : List (Rule κ π ρ)}
    {rules : RuleSet κ π ρ} (added : (RuleSet.empty settings).addAll list = .ok rules)
    {tree : Tree π} (built : tree.Built) :
    (rules.apply tree = .error .noRuleMatched ↔ ∀ rule ∈ list, ¬ rule.Applies settings tree) ∧
      (settings.policy = .first → (∃ rule ∈ list, rule.Applies settings tree) →
        ∃ index rule nodes, Rule.Earliest settings list tree index rule ∧
          rule.MatchesAlong settings tree nodes ∧
          rules.apply tree = .ok (rule.action tree nodes)) ∧
      ∀ more later, rules.addAll more = .ok later →
        (∃ rule ∈ list, rule.Applies settings tree) → later.apply tree = rules.apply tree := by
  have preorder := built.is_preorder
  have holds : rules.Holds settings list := (holds_empty settings).add_all added
  have picked (matched : ∃ rule ∈ list, rule.Applies settings tree) :
      ∃ step, rules.engine.Picks tree step := by
    obtain ⟨rule, member, applies⟩ := matched
    obtain ⟨step, finishes⟩ := holds.exists_finishes preorder member applies
    exact finishes.exists_picks preorder
  refine ⟨holds.apply_eq_none_iff preorder, ?_, ?_⟩
  · intro policy matched
    obtain ⟨step, picks⟩ := picked matched
    obtain ⟨automaton, known, -⟩ := picks.finishes
    obtain ⟨rule, earliest, chosen | ⟨strict, -⟩⟩ := holds.apply_outcome preorder picks known
    · obtain ⟨steps, along, acts, -⟩ := chosen
      exact ⟨step.automaton, rule, _, earliest, along, acts⟩
    · rw [policy] at strict
      cases strict
  · intro more later addedMore matched
    obtain ⟨step, picks⟩ := picked matched
    exact holds.apply_later (holds.add_all addedMore) preorder picks

def sumRules : List (Rule NodeTest Unit (String × List Nat)) :=
  [⟨.literal { symbol := "num" }, fun _ nodes => ("number", nodes)⟩,
    ⟨.plus (.literal { symbol := "num" }), fun _ nodes => ("numbers", nodes)⟩,
    ⟨.literal { symbol := "sum" }, fun _ nodes => ("sum", nodes)⟩]

/-- On a sum of two numbers the second rule acts, whatever rules are added. -/
theorem earliest_rule_acts_sum_tree :
    Engine.sumTree.Built ∧ ∃ rules, (RuleSet.empty {}).addAll sumRules = .ok rules ∧
      rules.apply Engine.sumTree = .ok ("numbers", [1, 2]) ∧
      (∃ index rule nodes, Rule.Earliest {} sumRules Engine.sumTree index rule ∧
        rule.MatchesAlong {} Engine.sumTree nodes ∧
        rule.action Engine.sumTree nodes = ("numbers", [1, 2])) ∧
      ∀ more later, rules.addAll more = .ok later →
        later.apply Engine.sumTree = .ok ("numbers", [1, 2]) := by
  have computed : ((RuleSet.empty {}).addAll sumRules >>= fun rules => rules.apply Engine.sumTree) =
      .ok ("numbers", [1, 2]) := by
    decide +kernel
  obtain ⟨rules, added, applied⟩ := bind_eq_ok_iff.1 computed
  obtain ⟨unmatched, acts, stays⟩ := earliest_rule_acts {} added Engine.sum_tree_built
  have matched : ∃ rule ∈ sumRules, rule.Applies {} Engine.sumTree := by
    apply Classical.byContradiction
    intro nothing
    have failed := unmatched.2 fun rule member applies => nothing ⟨rule, member, applies⟩
    rw [applied] at failed
    cases failed
  refine ⟨Engine.sum_tree_built, rules, added, applied, ?_, ?_⟩
  · obtain ⟨index, rule, nodes, earliest, along, result⟩ := acts rfl matched
    rw [applied, Except.ok.injEq] at result
    exact ⟨index, rule, nodes, earliest, along, result.symm⟩
  · intro more later addedMore
    exact (stays more later addedMore matched).trans applied

end RuleSet

end TreePattern
