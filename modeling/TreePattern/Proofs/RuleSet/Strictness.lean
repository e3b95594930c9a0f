import TreePattern.Proofs.RuleSet.Priority

/-!
# What the strict policy guarantees

Under the strict policy the picked step has one derivation only. Its rule may have other accepted
steps, which end other matches; these are not compared. So the nodes that a rule acts on are its
only match just if it has one accepted step.
-/

set_option autoImplicit false

namespace TreePattern

universe u v w

variable {κ : Type u} {π : Type v} {ρ : Type w} [Matches κ (Node π)]

/-- If one chain alone leads to a step that finishes a match, this is the only match of the
automaton just if no other step of it finishes one. -/
theorem Engine.unique_match_iff {engine : Engine κ} {tree : Tree π} (preorder : tree.IsPreorder)
    {step : Step} (finishes : engine.Finishes tree step) {automaton : Automaton κ}
    (known : engine.automata[step.automaton]? = some automaton) {steps : List Step}
    (only : ∀ other, automaton.Chain tree step.automaton other step → other = steps) :
    (∃! nodes, automaton.MatchesAlong tree nodes) ↔
      ∀ other, engine.Finishes tree other → other.automaton = step.automaton → other = step := by
  obtain ⟨chosen, chain, along⟩ := finishes.exists_match preorder known
  constructor
  · intro unique other otherFinishes owner
    have otherKnown := owner.symm ▸ known
    obtain ⟨others, otherChain, otherAlong⟩ := otherFinishes.exists_match preorder otherKnown
    rw [owner] at otherChain
    have same := otherChain.eq_of_positions chain (unique.unique otherAlong along)
    have last := otherChain.last_step
    rw [same, chain.last_step] at last
    exact (Option.some.inj last).symm
  · intro single
    refine ⟨_, along, ?_⟩
    intro nodes otherAlong
    obtain ⟨others, other, otherChain, positions, otherFinishes, owner⟩ :=
      exists_finishing_chain preorder known otherAlong
    have same := single other otherFinishes owner
    subst same
    rw [← positions, only others otherChain, only chosen chain]

namespace RuleSet

variable [BEq κ]

/-- What is returned under the strict policy comes from a match of the earliest rule that applies,
and this match is the only one of the rule just if the rule has one accepted step. -/
theorem strict_match_unique_iff {settings : Settings} (strict : settings.policy = .strict)
    {list : List (Rule κ π ρ)} {rules : RuleSet κ π ρ}
    (added : (RuleSet.empty settings).addAll list = .ok rules) {tree : Tree π} (built : tree.Built)
    {result : ρ} (applied : rules.apply tree = .ok result) :
    ∃ index rule nodes accepted, Rule.Earliest settings list tree index rule ∧
      rule.MatchesAlong settings tree nodes ∧ result = rule.action tree nodes ∧
      rules.engine.acceptedSteps (rules.engine.traverse tree) = .ok accepted ∧
      ((∃! other, rule.MatchesAlong settings tree other) ↔
        ∃! step, step ∈ accepted ∧ step.automaton = index) := by
  have preorder := built.is_preorder
  have visited := rules.engine.visited_traverse preorder
  have holds : rules.Holds settings list := (holds_empty settings).add_all added
  have finished : ∃ step, rules.engine.Finishes tree step := by
    apply Classical.byContradiction
    intro nothing
    have failed := rules.apply_of_nothing_finishes preorder (not_exists.1 nothing)
    rw [applied] at failed
    cases failed
  obtain ⟨someStep, someFinishes⟩ := finished
  obtain ⟨step, picks⟩ := someFinishes.exists_picks preorder
  obtain ⟨automaton, known, -⟩ := picks.finishes
  obtain ⟨rule, earliest, chosen | ⟨-, position, state, failed⟩⟩ :=
    holds.apply_outcome preorder picks known
  · obtain ⟨steps, along, acts, only⟩ := chosen
    rw [applied, Except.ok.injEq] at acts
    refine ⟨step.automaton, rule, _, _, earliest, along, acts,
      Engine.accepted_steps_eq preorder visited, ?_⟩
    simp only [holds.matches_along_iff earliest.listed known tree,
      Engine.mem_accepted_iff preorder visited]
    rw [Engine.unique_match_iff preorder picks.finishes known (only strict)]
    constructor
    · intro single
      exact ⟨step, ⟨picks.finishes, rfl⟩, fun other accepts => single other accepts.1 accepts.2⟩
    · intro unique other finishes owner
      exact unique.unique ⟨finishes, owner⟩ ⟨picks.finishes, rfl⟩
  · rw [applied] at failed
    cases failed

def openRule : Rule NodeTest Unit (List Nat) where
  pattern := .concat
    [.choice [.literal { symbol := "x" }, .literal { symbol := "y" }], .literal { symbol := "z" }]
  action _ nodes := nodes

def plainTree : Tree Unit where
  nodes := #[
    { symbol := "root", children := [1, 2] },
    { symbol := "x", parent := some 0 },
    { symbol := "z", parent := some 0, index := 1 }]

theorem plain_tree_built : plainTree.Built :=
  .steps (show Tree.ofSteps "root" [.emptyLeaf "x", .emptyLeaf "z"] = .ok plainTree from rfl)

theorem strict_match_unique_iff_plain_tree :
    plainTree.Built ∧ ∃ rules, (RuleSet.empty { policy := .strict }).addAll [openRule] = .ok rules ∧
      rules.apply plainTree = .ok [1, 2] ∧
      rules.engine.acceptedSteps (rules.engine.traverse plainTree) = .ok [⟨some 1, 1, 2, 3, 0⟩] ∧
      ∃! nodes, openRule.MatchesAlong { policy := .strict } plainTree nodes := by
  have computed : ((RuleSet.empty { policy := .strict }).addAll [openRule] >>=
      fun rules => rules.apply plainTree) = .ok [1, 2] := by
    decide +kernel
  have ends : ((RuleSet.empty { policy := .strict }).addAll [openRule] >>= fun rules =>
      rules.engine.acceptedSteps (rules.engine.traverse plainTree)) =
        .ok [⟨some 1, 1, 2, 3, 0⟩] := by
    decide +kernel
  obtain ⟨rules, added, applied⟩ := bind_eq_ok_iff.1 computed
  obtain ⟨again, sameRules, single⟩ := bind_eq_ok_iff.1 ends
  rw [added, Except.ok.injEq] at sameRules
  subst sameRules
  obtain ⟨index, rule, -, accepted, earliest, -, -, same, unique⟩ :=
    strict_match_unique_iff rfl added plain_tree_built applied
  rw [single, Except.ok.injEq] at same
  subst same
  have bound := (List.getElem?_eq_some_iff.1 earliest.listed).1
  have first : index = 0 := by
    rw [List.length_singleton] at bound
    omega
  subst first
  have isOpen : openRule = rule := Option.some.inj earliest.listed
  subst isOpen
  refine ⟨plain_tree_built, rules, added, applied, single, unique.2 ?_⟩
  refine ⟨_, ⟨List.mem_singleton_self _, rfl⟩, ?_⟩
  intro other member
  exact List.mem_singleton.1 member.1

def openTree : Tree Unit where
  nodes := #[
    { symbol := "root", children := [1, 3] },
    { symbol := "x", children := [2], parent := some 0 },
    { symbol := "y", parent := some 1 },
    { symbol := "z", parent := some 0, index := 1 }]

theorem open_tree_built : openTree.Built :=
  .steps (show Tree.ofSteps "root" [.node "x" [.emptyLeaf "y"], .emptyLeaf "z"] = .ok openTree
    from rfl)

def openAutomaton : Automaton NodeTest where
  start := 0
  accepting := .ofList [3]
  table := ⟨#[[⟨.consume { symbol := "x" }, 1⟩, ⟨.consume { symbol := "y" }, 2⟩],
    [⟨.consume { symbol := "z" }, 3⟩], [⟨.consume { symbol := "z" }, 3⟩], []]⟩

/-- The strict policy returns one of two matches: through `x` and `z`, and through `y` and `z`. Both
steps through `z` are accepted, and each has one derivation. -/
theorem strict_returns_one_of_two_matches :
    openTree.Built ∧ ∃ rules, (RuleSet.empty { policy := .strict }).addAll [openRule] = .ok rules ∧
      rules.apply openTree = .ok [1, 3] ∧
      openRule.MatchesAlong { policy := .strict } openTree [1, 3] ∧
      openRule.MatchesAlong { policy := .strict } openTree [2, 3] ∧
      ¬ ∃! nodes, openRule.MatchesAlong { policy := .strict } openTree nodes := by
  have computed : ((RuleSet.empty { policy := .strict }).addAll [openRule] >>=
      fun rules => rules.apply openTree) = .ok [1, 3] := by
    decide +kernel
  obtain ⟨rules, added, applied⟩ := bind_eq_ok_iff.1 computed
  have compiled : openRule.pattern.compile true = .ok openAutomaton := by
    cbv
  have throughX : openRule.MatchesAlong { policy := .strict } openTree [1, 3] := by
    refine ⟨openAutomaton, compiled, ?_, 3, ?_, rfl⟩
    · exact Tree.cut_children (show openTree.get? 0 = some _ from rfl) (List.cons_ne_nil _ _)
    · decide +kernel
  have throughY : openRule.MatchesAlong { policy := .strict } openTree [2, 3] := by
    have inner : openTree.Cut 1 [2] :=
      Tree.cut_children (show openTree.get? 1 = some _ from rfl) (List.cons_ne_nil _ _)
    refine ⟨openAutomaton, compiled, ?_, 3, ?_, rfl⟩
    · exact .inside (show openTree.get? 0 = some _ from rfl) (List.cons_ne_nil _ _)
        (.cons inner (.cons (.here 3) .nil))
    · decide +kernel
  refine ⟨open_tree_built, rules, added, applied, throughX, throughY, ?_⟩
  intro unique
  have same := unique.unique throughX throughY
  exact absurd same (by decide)

end RuleSet

end TreePattern
