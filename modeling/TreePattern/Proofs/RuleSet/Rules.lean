import TreePattern.Proofs.Matching.AlongCuts
import TreePattern.RuleSet

/-!
# Rules in order

A rule set made by adding rules holds, for each of them and in their order, the automaton of its
pattern and its action. Adding more rules leaves the automata and actions that were there.
-/

set_option autoImplicit false

namespace TreePattern

universe u v w

structure Rule (κ : Type u) (π : Type v) (ρ : Type w) where
  pattern : Pattern κ
  action : Tree π → List Nat → ρ

variable {κ : Type u} {π : Type v} {ρ : Type w} [BEq κ]

def Rule.MatchesAlong [Matches κ (Node π)] (settings : Settings) (rule : Rule κ π ρ)
    (tree : Tree π) (nodes : List Nat) : Prop :=
  ∃ automaton, rule.pattern.compile settings.eliminateEpsilon = .ok automaton ∧
    automaton.MatchesAlong tree nodes

def Rule.Applies [Matches κ (Node π)] (settings : Settings) (rule : Rule κ π ρ)
    (tree : Tree π) : Prop :=
  ∃ nodes, rule.MatchesAlong settings tree nodes

structure Rule.Earliest [Matches κ (Node π)] (settings : Settings) (list : List (Rule κ π ρ))
    (tree : Tree π) (index : Nat) (rule : Rule κ π ρ) : Prop where
  listed : list[index]? = some rule
  applies : rule.Applies settings tree
  first : ∀ earlier ∈ list.take index, ¬ earlier.Applies settings tree

namespace RuleSet

variable {rules later : RuleSet κ π ρ} {settings : Settings} {list more : List (Rule κ π ρ)}

def addAll (rules : RuleSet κ π ρ) (more : List (Rule κ π ρ)) : Except Failure (RuleSet κ π ρ) :=
  more.foldlM (fun grown rule => grown.add rule.pattern rule.action) rules

/-- The rule set runs the automata of these rules, in this order, and knows their actions. -/
structure Holds (rules : RuleSet κ π ρ) (settings : Settings) (list : List (Rule κ π ρ)) :
    Prop where
  eliminateEpsilon : rules.eliminateEpsilon = settings.eliminateEpsilon
  policy : rules.engine.policy = settings.policy
  automata : rules.engine.automata.toList.map Except.ok =
    list.map fun rule => rule.pattern.compile settings.eliminateEpsilon
  actions : rules.actions.toList = list.map (·.action)

theorem holds_empty (settings : Settings) :
    (RuleSet.empty settings : RuleSet κ π ρ).Holds settings [] :=
  ⟨rfl, rfl, rfl, rfl⟩

theorem Holds.add (holds : rules.Holds settings list) {rule : Rule κ π ρ}
    (added : rules.add rule.pattern rule.action = .ok later) :
    later.Holds settings (list ++ [rule]) := by
  unfold RuleSet.add at added
  split at added
  · cases added
  · rename_i automaton compiled
    cases added
    rw [holds.eliminateEpsilon] at compiled
    refine ⟨holds.eliminateEpsilon, holds.policy, ?_, ?_⟩
    · simp only [Engine.addAutomaton, Array.toList_push, List.map_append, holds.automata,
        List.map_singleton, compiled]
    · simp only [Array.toList_push, List.map_append, holds.actions, List.map_singleton]

theorem Holds.add_all (holds : rules.Holds settings list) (added : rules.addAll more = .ok later) :
    later.Holds settings (list ++ more) := by
  induction more generalizing rules list with
  | nil =>
      cases added
      rw [List.append_nil]
      exact holds
  | cons rule rest induction =>
      obtain ⟨grown, once, others⟩ := bind_eq_ok_iff.1 (List.foldlM_cons.symm.trans added)
      have both := induction (holds.add once) others
      rwa [List.append_assoc, List.singleton_append] at both

theorem Holds.automaton_iff (holds : rules.Holds settings list) (index : Nat)
    (automaton : Automaton κ) :
    rules.engine.automata[index]? = some automaton ↔ ∃ rule, list[index]? = some rule ∧
      rule.pattern.compile settings.eliminateEpsilon = .ok automaton := by
  have same := congrArg (·[index]?) holds.automata
  simp only [List.getElem?_map, Array.getElem?_toList] at same
  constructor
  · intro known
    rw [known] at same
    obtain ⟨rule, listed, compiled⟩ := Option.map_eq_some_iff.1 same.symm
    exact ⟨rule, listed, compiled⟩
  · intro compiled
    obtain ⟨rule, listed, compiled⟩ := compiled
    rw [listed, Option.map_some, compiled] at same
    obtain ⟨other, known, equal⟩ := Option.map_eq_some_iff.1 same
    cases equal
    exact known

theorem Holds.action_eq (holds : rules.Holds settings list) {index : Nat} {rule : Rule κ π ρ}
    (listed : list[index]? = some rule) : rules.actions[index]? = some rule.action := by
  rw [← Array.getElem?_toList, holds.actions, List.getElem?_map, listed, Option.map_some]

theorem Holds.automaton_stays (holds : rules.Holds settings list)
    (laterHolds : later.Holds settings (list ++ more)) {index : Nat} (bound : index < list.length) :
    later.engine.automata[index]? = rules.engine.automata[index]? := by
  apply Option.ext
  intro automaton
  rw [laterHolds.automaton_iff, holds.automaton_iff, List.getElem?_append_left bound]

theorem Holds.exists_automaton (holds : rules.Holds settings list) {index : Nat}
    {rule : Rule κ π ρ} (listed : list[index]? = some rule) :
    ∃ automaton, rules.engine.automata[index]? = some automaton ∧
      rule.pattern.compile settings.eliminateEpsilon = .ok automaton := by
  have same := congrArg (·[index]?) holds.automata
  simp only [List.getElem?_map, Array.getElem?_toList, listed, Option.map_some] at same
  obtain ⟨automaton, known, compiled⟩ := Option.map_eq_some_iff.1 same
  exact ⟨automaton, known, compiled.symm⟩

theorem Holds.matches_along_iff [Matches κ (Node π)] (holds : rules.Holds settings list)
    {index : Nat} {rule : Rule κ π ρ} (listed : list[index]? = some rule)
    {automaton : Automaton κ} (known : rules.engine.automata[index]? = some automaton)
    (tree : Tree π) (nodes : List Nat) :
    rule.MatchesAlong settings tree nodes ↔ automaton.MatchesAlong tree nodes := by
  obtain ⟨other, otherListed, compiled⟩ := (holds.automaton_iff index automaton).1 known
  rw [listed] at otherListed
  cases otherListed
  simp only [Rule.MatchesAlong, compiled, Except.ok.injEq, exists_eq_left']

/-- A rule applies just if some step of its automaton finishes a match. -/
theorem Holds.applies_iff [Matches κ (Node π)] (holds : rules.Holds settings list)
    {tree : Tree π} (preorder : tree.IsPreorder) {index : Nat} {rule : Rule κ π ρ}
    (listed : list[index]? = some rule) :
    rule.Applies settings tree ↔
      ∃ step, rules.engine.Finishes tree step ∧ step.automaton = index := by
  obtain ⟨automaton, known, -⟩ := holds.exists_automaton listed
  rw [Engine.exists_finishes_iff preorder known]
  exact exists_congr (holds.matches_along_iff listed known tree)

end RuleSet

end TreePattern
