import TreePattern.Proofs.Automaton.Unambiguous
import TreePattern.Proofs.Matching.AlongCuts

/-!
# A reduced automaton misses no match

An engine follows one transition for each attempt. For an automaton that subset construction made
this loses nothing, provided that no symbol is tested both with and without a value: then tests that
pass a common node are equal, and the engine finds a match just if the original automaton accepts
the nodes of some cut.
-/

set_option autoImplicit false

namespace TreePattern

universe u v

namespace Automaton

/-- No symbol stands both in a test with a value and in a test without one. -/
def ValuesApart (automaton : Automaton NodeTest) : Prop :=
  ∀ bare valued, automaton.HasTest bare → automaton.HasTest valued → bare.value = none →
    valued.value ≠ none → bare.symbol ≠ valued.symbol

theorem ValuesApart.tests_apart {automaton : Automaton NodeTest} (apart : automaton.ValuesApart)
    (π : Type v) : automaton.TestsApart (Node π) := by
  intro left right leftStands rightStands node leftPasses rightPasses
  obtain ⟨leftSymbol, leftValue⟩ := (NodeTest.passes_iff left node).1 leftPasses
  obtain ⟨rightSymbol, rightValue⟩ := (NodeTest.passes_iff right node).1 rightPasses
  have symbol : left.symbol = right.symbol := leftSymbol.symm.trans rightSymbol
  rw [beq_iff_eq, NodeTest.mk.injEq]
  refine ⟨symbol, ?_⟩
  cases leftHas : left.value with
  | none =>
      cases rightHas : right.value with
      | none => rfl
      | some value =>
          have valued : right.value ≠ none := by
            rw [rightHas]
            exact Option.some_ne_none value
          exact absurd symbol (apart left right leftStands rightStands leftHas valued)
  | some value =>
      have valued : left.value ≠ none := by
        rw [leftHas]
        exact Option.some_ne_none value
      cases rightHas : right.value with
      | none =>
          exact absurd symbol.symm (apart right left rightStands leftStands rightHas valued)
      | some other =>
          exact (leftValue value leftHas).2.symm.trans (rightValue other rightHas).2

variable {κ : Type u} {π : Type v} [Matches κ (Node π)]

/-- Where first matching transitions are the only path, the matches along cuts are the cuts that the
automaton accepts. -/
theorem Unambiguous.matches_along_iff {automaton : Automaton κ}
    (unambiguous : automaton.Unambiguous (Node π)) (tree : Tree π) (nodes : List Nat) :
    automaton.MatchesAlong tree nodes ↔ tree.Cut Tree.root nodes ∧
      ∃ values, nodes.mapM tree.get? = some values ∧ automaton.accepts values = true := by
  simp only [accepts_iff_accepting_path, HasAcceptingPath, ← unambiguous.run_first_iff_path]
  constructor
  · intro along
    obtain ⟨target, run, accepting⟩ := along.accepted
    obtain ⟨values, known, reached⟩ := Option.bind_eq_some_iff.1 run
    exact ⟨along.cut, values, known, target, reached, accepting⟩
  · intro accepted
    obtain ⟨cut, values, known, target, reached, accepting⟩ := accepted
    exact ⟨cut, target, Option.bind_eq_some_iff.2 ⟨values, known, reached⟩, accepting⟩

end Automaton

namespace Engine

variable {π : Type v}

theorem exists_accepted_iff {κ : Type u} [Matches κ (Node π)] (engine : Engine κ) {tree : Tree π}
    (built : tree.Built) {index : Nat} {automaton : Automaton κ}
    (known : engine.automata[index]? = some automaton) :
    ∃ accepted, engine.acceptedSteps (engine.traverse tree) = .ok accepted ∧
      (∀ step ∈ accepted, step.automaton < engine.automata.size) ∧
      ((∃ step ∈ accepted, step.automaton = index) ↔
        ∃ nodes, automaton.MatchesAlong tree nodes) := by
  have preorder := built.is_preorder
  have visited := engine.visited_traverse preorder
  refine ⟨_, accepted_steps_eq preorder visited, ?_, ?_⟩
  · intro step member
    obtain ⟨other, otherKnown, -⟩ := (mem_accepted_iff preorder visited step).1 member
    exact (Array.getElem?_eq_some_iff.1 otherKnown).1
  · simp only [mem_accepted_iff preorder visited]
    exact exists_finishes_iff preorder known

/-- An engine with a reduced automaton alone accepts a step just if the automaton that was reduced
accepts the nodes of some cut of the root: whatever its silent transitions, cycles and repeated
transitions, as long as no symbol is tested both with and without a value. -/
theorem reduced_engine_misses_nothing (automaton : Automaton NodeTest)
    (apart : automaton.ValuesApart) {tree : Tree π} (built : tree.Built) :
    ∃ dfa, automaton.toDfa = .ok dfa ∧
      ∀ engine : Engine NodeTest, engine.automata = #[dfa] →
        ∃ accepted, engine.acceptedSteps (engine.traverse tree) = .ok accepted ∧
          (accepted ≠ [] ↔ ∃ nodes, tree.Cut Tree.root nodes ∧
            ∃ values, nodes.mapM tree.get? = some values ∧ automaton.accepts values = true) := by
  obtain ⟨dfa, reduced⟩ := automaton.exists_to_dfa fun test _ => beq_self_eq_true test
  obtain ⟨found, subset⟩ := Automaton.subset_of_to_dfa reduced
  have unambiguous := subset.unambiguous (apart.tests_apart π)
  refine ⟨dfa, reduced, ?_⟩
  intro engine single
  have known : engine.automata[0]? = some dfa := by
    rw [single]
    rfl
  obtain ⟨accepted, same, owned, finds⟩ := engine.exists_accepted_iff built known
  refine ⟨accepted, same, ?_⟩
  have nonempty_iff : accepted ≠ [] ↔ ∃ step ∈ accepted, step.automaton = 0 := by
    constructor
    · intro nonempty
      obtain ⟨step, member⟩ := List.exists_mem_of_ne_nil accepted nonempty
      have bound := owned step member
      rw [single, List.size_toArray, List.length_singleton] at bound
      exact ⟨step, member, by omega⟩
    · intro nonempty
      obtain ⟨step, member, -⟩ := nonempty
      exact List.ne_nil_of_mem member
  rw [nonempty_iff, finds]
  apply exists_congr
  intro nodes
  have language (values : List (Node π)) : dfa.accepts values = automaton.accepts values := by
    rw [Bool.eq_iff_iff, Automaton.accepts_iff_accepting_path,
      Automaton.accepts_iff_accepting_path]
    exact subset.has_accepting_path_iff values
  simp only [unambiguous.matches_along_iff, language]

/-- Numbers with a plus between any two of them: with a silent cycle and a repeated transition. -/
def additions : Automaton NodeTest where
  start := 0
  accepting := .ofList [2]
  table := TransitionTable.empty
    |>.add 0 .epsilon 1
    |>.add 1 .epsilon 0
    |>.add 1 (.consume { symbol := "num" }) 2
    |>.add 0 (.consume { symbol := "num" }) 2
    |>.add 2 (.consume { symbol := "op", value := some "+" }) 0

def additionsReduced : Automaton NodeTest where
  start := 0
  accepting := .ofList [1]
  table := ⟨#[[⟨.consume { symbol := "num" }, 1⟩],
    [⟨.consume { symbol := "op", value := some "+" }, 0⟩]]⟩

def nestedSum : Tree Unit where
  nodes := #[
    { symbol := "sum", children := [1, 2, 3] },
    { symbol := "num", value := some "1", parent := some 0 },
    { symbol := "op", value := some "+", parent := some 0, index := 1 },
    { symbol := "term", children := [4], parent := some 0, index := 2 },
    { symbol := "num", value := some "2", parent := some 3 }]

theorem nested_sum_built : nestedSum.Built :=
  .steps (show Tree.ofSteps "sum"
      [.leaf "num" "1", .leaf "op" "+", .node "term" [.leaf "num" "2"]] = .ok nestedSum from rfl)

theorem additions_values_apart : additions.ValuesApart := by
  have tests : additions.table.toList.filterMap (·.2.condition.test?) =
      [⟨"num", none⟩, ⟨"num", none⟩, ⟨"op", some "+"⟩] := rfl
  have apart : ∀ bare ∈ additions.table.toList.filterMap (·.2.condition.test?),
      ∀ valued ∈ additions.table.toList.filterMap (·.2.condition.test?),
        bare.value = none → valued.value ≠ none → bare.symbol ≠ valued.symbol := by
    rw [tests]
    decide
  intro bare valued bareStands valuedStands
  rw [Automaton.has_test_iff] at bareStands valuedStands
  exact apart bare bareStands valued valuedStands

theorem reduced_engine_misses_nothing_additions :
    additions.ValuesApart ∧ nestedSum.Built ∧ additions.toDfa = .ok additionsReduced ∧
      Engine.acceptedSteps ⟨#[additionsReduced], .first⟩
        (Engine.traverse ⟨#[additionsReduced], .first⟩ nestedSum) = .ok [⟨some 2, 0, 4, 1, 0⟩] ∧
      ∃ nodes, nestedSum.Cut Tree.root nodes ∧
        ∃ values, nodes.mapM nestedSum.get? = some values ∧ additions.accepts values = true := by
  have reduced : additions.toDfa = .ok additionsReduced := rfl
  have computed : Engine.acceptedSteps ⟨#[additionsReduced], .first⟩
      (Engine.traverse ⟨#[additionsReduced], .first⟩ nestedSum) =
        .ok [⟨some 2, 0, 4, 1, 0⟩] := by
    decide +kernel
  refine ⟨additions_values_apart, nested_sum_built, reduced, computed, ?_⟩
  obtain ⟨dfa, same, finds⟩ :=
    reduced_engine_misses_nothing additions additions_values_apart nested_sum_built
  rw [reduced, Except.ok.injEq] at same
  subst same
  obtain ⟨accepted, found, matched⟩ := finds ⟨#[additionsReduced], .first⟩ rfl
  rw [computed, Except.ok.injEq] at found
  subst found
  exact matched.1 (List.cons_ne_nil _ _)

end Engine

end TreePattern
