import Mathlib.Data.List.Induction
import TreePattern.Condition.NodeTest
import TreePattern.Proofs.Matching.Ambiguity
import TreePattern.Proofs.Matching.Renaming
import TreePattern.Proofs.Tree.Wrapping

/-!
# Intermediate nodes are transparent

A node that no condition matches can be put above some consecutive children of a node, or above the
root, and nothing changes but the positions: attempts go down past it, no step leads through it, and
all that an engine records, accepts and derives is what it was, at the copies of the nodes. Tests
must not see where a node stands: tests of its symbol and value do not, but a test of its place
among its siblings does, and then a match may appear.
-/

set_option autoImplicit false

namespace TreePattern

universe u v

/-- Tests that see the label of a node and whether it is a leaf, and nothing of where it stands. -/
class LabelTests (κ : Type u) (π : Type v) [Matches κ (Node π)] : Prop where
  passes_eq (test : κ) {node other : Node π} (symbol : node.symbol = other.symbol)
    (value : node.value = other.value) (payload : node.payload = other.payload)
    (leaf : node.isLeaf = other.isLeaf) : Matches.passes test node = Matches.passes test other

instance {π : Type v} : LabelTests NodeTest π where
  passes_eq test node other symbol value _ leaf := by
    have same : test.passes node = test.passes other := by
      unfold NodeTest.passes
      rw [symbol, value, leaf]
    exact same

variable {κ : Type u} {π : Type v} [Matches κ (Node π)]

def Automaton.Ignores (automaton : Automaton κ) (node : Node π) : Prop :=
  ∀ state, ∀ transition ∈ automaton.transitions state, transition.condition.accepts node = false

theorem Automaton.Ignores.destination_eq {automaton : Automaton κ} {node : Node π}
    (ignores : automaton.Ignores node) (state : Nat) :
    automaton.destination? state node = none := by
  have nothing : (automaton.transitions state).find? (·.condition.accepts node) = none := by
    rw [List.find?_eq_none]
    intro transition member
    rw [ignores state transition member]
    exact Bool.false_ne_true
  exact congrArg (Option.map (·.destination)) nothing

theorem Automaton.ignores_iff (automaton : Automaton κ) (node : Node π) :
    automaton.Ignores node ↔
      ∀ entry ∈ automaton.table.toList, entry.2.condition.accepts node = false := by
  constructor
  · intro ignores entry member
    exact ignores entry.1 entry.2 ((TransitionTable.mem_to_list ..).1 member)
  · intro listed state transition leaving
    exact listed (state, transition) ((TransitionTable.mem_to_list ..).2 leaving)

instance (automaton : Automaton κ) (node : Node π) : Decidable (automaton.Ignores node) :=
  decidable_of_iff' _ (automaton.ignores_iff node)

namespace Tree.Spot

variable {tree : Tree π} {spot : tree.Spot} {symbol : String} {payload : Option π}
  {automaton : Automaton κ}

section Labels

variable [LabelTests κ π] {id : Nat} {node : Node π}

theorem accepts_copy (spot : tree.Spot) (found : tree.get? id = some node)
    (condition : Condition κ) :
    condition.accepts (spot.copy id node) = condition.accepts node := by
  cases condition with
  | epsilon => rfl
  | consume test =>
      have leaf : (spot.copy id node).isLeaf = node.isLeaf := by
        unfold Node.isLeaf
        rw [Bool.eq_iff_iff, List.isEmpty_iff, List.isEmpty_iff]
        exact spot.copy_children_eq_nil_iff found
      exact LabelTests.passes_eq test rfl rfl rfl leaf

theorem destination_copy (spot : tree.Spot) (found : tree.get? id = some node) (state : Nat) :
    automaton.destination? state (spot.copy id node) = automaton.destination? state node := by
  unfold Automaton.destination? TransitionTable.destination?
  simp only [spot.accepts_copy found]

theorem run_along_wrap (automaton : Automaton κ) (state : Nat) (nodes : List Nat) :
    automaton.runAlong (tree.wrap spot symbol payload) state (nodes.map spot.shift) =
      automaton.runAlong tree state nodes := by
  apply Option.ext
  induction nodes using List.reverseRecOn with
  | nil => exact fun _ => Iff.rfl
  | append_singleton nodes id induction =>
      intro target
      rw [List.map_append, List.map_singleton, Automaton.run_along_concat,
        Automaton.run_along_concat]
      simp only [induction, get_wrap_shift, Option.map_eq_some_iff]
      constructor
      · intro reached
        obtain ⟨source, copy, run, ⟨node, found, same⟩, moved⟩ := reached
        rw [← same, spot.destination_copy found] at moved
        exact ⟨source, node, run, found, moved⟩
      · intro reached
        obtain ⟨source, node, run, found, moved⟩ := reached
        rw [← spot.destination_copy found] at moved
        exact ⟨source, _, run, ⟨node, found, rfl⟩, moved⟩

end Labels

theorem run_elsewhere (preorder : tree.IsPreorder)
    (ignores : automaton.Ignores (spot.wrapper symbol payload)) {state target : Nat}
    {nodes : List Nat}
    (run : automaton.runAlong (tree.wrap spot symbol payload) state nodes = some target) :
    spot.first ∉ nodes := by
  have bound := Nat.le_of_lt (spot.first_lt_size preorder)
  induction nodes using List.reverseRecOn generalizing target with
  | nil => exact List.not_mem_nil
  | append_singleton nodes id induction =>
      obtain ⟨source, node, before, found, moved⟩ := (Automaton.run_along_concat ..).1 run
      intro member
      rcases List.mem_append.1 member with earlier | last
      · exact induction before earlier
      · rw [← List.mem_singleton.1 last, spot.get_wrap_first symbol payload bound,
          Option.some.injEq] at found
        rw [← found, ignores.destination_eq] at moved
        cases moved

def names (spot : tree.Spot) : Renaming where
  place := spot.shift
  increasing := spot.shift_strict_mono
  owner := id

variable [LabelTests κ π]

/-- The ways to the copy of a node are the ways to the node. -/
theorem enters_wrap_iff (preorder : tree.IsPreorder)
    (ignores : automaton.Ignores (spot.wrapper symbol payload)) (index id : Nat)
    (attempt : Attempt) :
    automaton.Enters (tree.wrap spot symbol payload) index (spot.shift id) attempt ↔
      ∃ original, automaton.Enters tree index id original ∧
        original.rename spot.names = attempt := by
  constructor
  · intro enters
    obtain ⟨owner, nodes, advances, last, run⟩ := enters
    obtain ⟨old, same, oldAdvances⟩ :=
      exists_advances_of_wrap preorder advances (run_elsewhere preorder ignores run)
    subst same
    rw [run_along_wrap] at run
    rw [old_edge_shift] at oldAdvances
    refine ⟨⟨old.getLast?, attempt.state, attempt.automaton⟩, ?_, ?_⟩
    · exact ⟨owner, old, oldAdvances, rfl, run⟩
    · rw [List.getLast?_map] at last
      exact congrArg (fun last => Attempt.mk last attempt.state attempt.automaton) last.symm
  · intro renamed
    obtain ⟨original, ⟨owner, nodes, advances, last, run⟩, same⟩ := renamed
    subst same
    refine ⟨owner, nodes.map spot.shift, ?_, ?_, ?_⟩
    -- In front of the first node below the new one, there is one more move down.
    · have copied : (tree.wrap spot symbol payload).Advances (spot.edge 0)
          (nodes.map spot.shift) (spot.edge id) := advances_wrap preorder advances
      have whole := copied.append (advances_edge_shift preorder id)
      rw [List.append_nil] at whole
      exact whole
    · rw [List.getLast?_map, ← last]
      rfl
    · rw [run_along_wrap]
      exact run

theorem passes_wrap_iff (preorder : tree.IsPreorder)
    (ignores : automaton.Ignores (spot.wrapper symbol payload)) (index id : Nat) (step : Step) :
    automaton.Passes (tree.wrap spot symbol payload) index id step ↔
      ∃ origin original, automaton.Passes tree index origin original ∧
        spot.shift origin = id ∧ original.rename spot.names = step := by
  have bound := Nat.le_of_lt (spot.first_lt_size preorder)
  constructor
  · intro passes
    obtain ⟨attempt, node, target, enters, found, moved, whole⟩ := passes
    rcases spot.eq_first_or_shift id with isFirst | isCopy
    · rw [isFirst, spot.get_wrap_first symbol payload bound, Option.some.injEq] at found
      rw [← found, ignores.destination_eq] at moved
      cases moved
    · obtain ⟨origin, same⟩ := isCopy
      subst same
      obtain ⟨original, originalEnters, same⟩ :=
        (enters_wrap_iff preorder ignores index origin attempt).1 enters
      rw [get_wrap_shift, Option.map_eq_some_iff] at found
      obtain ⟨old, oldFound, copied⟩ := found
      subst same copied whole
      rw [spot.destination_copy oldFound] at moved
      exact ⟨origin, original.advance origin target,
        ⟨original, old, target, originalEnters, oldFound, moved, rfl⟩, rfl,
        original.rename_advance origin target⟩
  · intro renamed
    obtain ⟨origin, original, ⟨attempt, node, target, enters, found, moved, whole⟩, place, same⟩ :=
      renamed
    subst same place whole
    have copied := (enters_wrap_iff preorder ignores index origin _).2 ⟨attempt, enters, rfl⟩
    rw [← spot.destination_copy found] at moved
    exact ⟨_, _, target, copied, spot.get_wrap_shift_of_found symbol payload found, moved,
      attempt.rename_advance origin target⟩

/-- What belongs to an automaton in the tree with the new node is what belongs to it in the tree. -/
theorem mirrors_wrap (preorder : tree.IsPreorder)
    (ignores : automaton.Ignores (spot.wrapper symbol payload)) (index : Nat) :
    automaton.Mirrors tree (tree.wrap spot symbol payload) index spot.names where
  bound id bound := by
    have inside := spot.first_lt_size preorder
    rw [spot.size_wrap symbol payload (Nat.le_of_lt inside),
      ← spot.shift_of_ge (Nat.le_of_lt inside)]
    exact spot.shift_strict_mono bound
  enters id _ attempt := enters_wrap_iff preorder ignores index id attempt
  passes id step := passes_wrap_iff preorder ignores index id step
  fills id bound := by
    have inside := spot.first_lt_size preorder
    rw [spot.size_wrap symbol payload (Nat.le_of_lt inside), ← spot.edge_of_gt inside]
    exact fills_wrap_iff preorder bound

end Tree.Spot

namespace Engine

variable {engine : Engine κ} {tree : Tree π} {spot : tree.Spot} {symbol : String}
  {payload : Option π}

/-- What the engine records for the tree with a new node at the spot, what it accepts and what it
derives is what it is for the tree, at the copies of the nodes, and no step leads through the new
node. -/
structure SeesThrough (engine : Engine κ) {tree : Tree π} (spot : tree.Spot) (symbol : String)
    (payload : Option π) : Prop where
  positions : ∀ id < tree.size,
    (engine.traverse (tree.wrap spot symbol payload)).positionOf? (spot.shift id) =
      ((engine.traverse tree).positionOf? id).map spot.shift
  holds : ∀ id < tree.size, ∀ index < engine.automata.size, ∃ attempts steps,
    (engine.traverse tree).Holds id index attempts steps ∧
      (engine.traverse (tree.wrap spot symbol payload)).Holds (spot.shift id) index
        (attempts.map (Attempt.rename spot.names)) (steps.map (Step.rename spot.names))
  silent : ∀ index < engine.automata.size, ∃ attempts,
    (engine.traverse (tree.wrap spot symbol payload)).Holds spot.first index attempts []
  accepted : ∃ accepted, engine.acceptedSteps (engine.traverse tree) = .ok accepted ∧
    engine.acceptedSteps (engine.traverse (tree.wrap spot symbol payload)) =
      .ok (accepted.map (Step.rename spot.names))
  derivations : spot.names.Corresponds engine.policy (List.map (List.map (Step.rename spot.names)))
    (engine.derivations (engine.traverse tree))
    (engine.derivations (engine.traverse (tree.wrap spot symbol payload)))

section Wrapped

variable [LabelTests κ π]

theorem mirrored_wrap (preorder : tree.IsPreorder) {index : Nat} {automaton : Automaton κ}
    (known : engine.automata[index]? = some automaton)
    (ignores : automaton.Ignores (spot.wrapper symbol payload)) :
    MirroredRuns engine tree engine (tree.wrap spot symbol payload) automaton index spot.names where
  preorder := preorder
  otherPreorder := spot.is_preorder_wrap preorder
  known := known
  otherKnown := known
  policy := rfl
  mirrors := spot.mirrors_wrap preorder ignores index

theorem finishes_wrap_iff (preorder : tree.IsPreorder)
    (ignored : ∀ automaton ∈ engine.automata, automaton.Ignores (spot.wrapper symbol payload))
    (step : Step) :
    engine.Finishes (tree.wrap spot symbol payload) step ↔
      ∃ original, engine.Finishes tree original ∧ original.rename spot.names = step := by
  constructor
  · intro finishes
    have whole := finishes
    obtain ⟨automaton, known, -⟩ := whole
    have runs := mirrored_wrap preorder known (ignored automaton (Array.mem_of_getElem? known))
    obtain ⟨original, -, originalFinishes, same⟩ := (runs.finishes_iff rfl).1 finishes
    exact ⟨original, originalFinishes, same⟩
  · intro renamed
    obtain ⟨original, finishes, same⟩ := renamed
    have whole := finishes
    obtain ⟨automaton, known, -⟩ := whole
    have runs := mirrored_wrap preorder known (ignored automaton (Array.mem_of_getElem? known))
    have owner : (original.rename spot.names).automaton =
        spot.names.owner original.automaton := rfl
    rw [← same]
    exact (runs.finishes_iff owner).2 ⟨original, rfl, finishes, rfl⟩

theorem holds_silent (preorder : tree.IsPreorder) {index : Nat} {automaton : Automaton κ}
    (known : engine.automata[index]? = some automaton)
    (ignores : automaton.Ignores (spot.wrapper symbol payload)) :
    ∃ attempts,
      (engine.traverse (tree.wrap spot symbol payload)).Holds spot.first index attempts [] := by
  have runs := mirrored_wrap preorder known ignores
  have inside := spot.first_lt_size preorder
  have bound : spot.first < (tree.wrap spot symbol payload).size := by
    rw [spot.size_wrap symbol payload (Nat.le_of_lt inside)]
    exact Nat.lt_succ_of_lt inside
  obtain ⟨attempts, steps, holds, -, -, -, members⟩ :=
    (engine.visited_traverse runs.otherPreorder).exists_holds
      (engine.ordered_traverse runs.otherPreorder) known bound
  have nothing : steps = [] := by
    apply List.eq_nil_iff_forall_not_mem.2
    intro step member
    obtain ⟨origin, -, -, place, -⟩ :=
      (spot.passes_wrap_iff preorder ignores index spot.first step).1 ((members step).1 member)
    exact spot.shift_ne_first origin place
  rw [nothing] at holds
  exact ⟨attempts, holds⟩

/-- Intermediate nodes are transparent: a new node that no condition matches, put above some
consecutive children of a node or above the root, changes nothing but the positions. -/
theorem intermediate_node_transparent (engine : Engine κ) {tree : Tree π} (built : tree.Built)
    (spot : tree.Spot) (symbol : String) (payload : Option π)
    (ignored : ∀ automaton ∈ engine.automata, automaton.Ignores (spot.wrapper symbol payload)) :
    (tree.wrap spot symbol payload).Built ∧ engine.SeesThrough spot symbol payload := by
  have preorder := built.is_preorder
  have otherPreorder : (tree.wrap spot symbol payload).IsPreorder := spot.is_preorder_wrap preorder
  have inside := spot.first_lt_size preorder
  have size := spot.size_wrap symbol payload (Nat.le_of_lt inside)
  have runsOf {index : Nat} {automaton : Automaton κ}
      (known : engine.automata[index]? = some automaton) :=
    mirrored_wrap preorder known (ignored automaton (Array.mem_of_getElem? known))
  obtain ⟨accepted, found, sorted, members⟩ := engine.exists_accepted preorder
  obtain ⟨others, othersFound, othersSorted, otherMembers⟩ := engine.exists_accepted otherPreorder
  have same : others = accepted.map (Step.rename spot.names) := by
    apply sorted.eq_map othersSorted
    · exact fun first _ second _ smaller => Step.rename_key_lt smaller id
    · intro step
      simp only [otherMembers, finishes_wrap_iff preorder ignored, members]
  refine ⟨spot.built_wrap built, ?_, ?_, ?_, ⟨accepted, found, same ▸ othersFound⟩, ?_⟩
  · intro id bound
    have otherBound : spot.shift id < (tree.wrap spot symbol payload).size := by
      rw [size, ← spot.shift_of_ge (Nat.le_of_lt inside)]
      exact spot.shift_strict_mono bound
    rw [(engine.visited_traverse preorder).position_of bound,
      (engine.visited_traverse otherPreorder).position_of otherBound]
    rfl
  · intro id bound index known
    exact (runsOf (Array.getElem?_eq_getElem known)).exists_holds bound
  · intro index known
    have listed := Array.getElem?_eq_getElem known
    exact holds_silent preorder listed (ignored _ (Array.mem_of_getElem? listed))
  · unfold derivations
    rw [found, othersFound, same]
    apply Renaming.Corresponds.map_m
    intro step member
    obtain ⟨automaton, known, -, passes, -⟩ := (members step).1 member
    exact (runsOf known).derivation_of passes

end Wrapped

def forkSpot : forkTree.Spot where
  parent := some 0
  offset := 1
  count := 2
  nonempty := Nat.zero_lt_two
  fits := Nat.le_refl 3

/-- The steps through `z`, where the derivations part, are now found one position further. -/
theorem intermediate_node_transparent_fork :
    forkTree.Built ∧
      (∀ automaton ∈ forkEngine.automata, automaton.Ignores (forkSpot.wrapper "group" none)) ∧
      Tree.ofSteps "root" [.node "x" [.emptyLeaf "y"],
        .node "group" [.emptyLeaf "z", .emptyLeaf "v"]] =
          .ok (forkTree.wrap forkSpot "group" none) ∧
      forkEngine.derivations (forkEngine.traverse forkTree) = .error (.ambiguousDerivation 3 3) ∧
      forkEngine.derivations (forkEngine.traverse (forkTree.wrap forkSpot "group" none)) =
        .error (.ambiguousDerivation 4 3) ∧
      forkEngine.SeesThrough forkSpot "group" none := by
  have ignored : ∀ automaton ∈ forkEngine.automata,
      automaton.Ignores (forkSpot.wrapper "group" none) := by
    decide +kernel
  have computed : forkEngine.derivations (forkEngine.traverse forkTree) =
      .error (.ambiguousDerivation 3 3) := by
    decide +kernel
  obtain ⟨-, through⟩ :=
    intermediate_node_transparent forkEngine fork_tree_built forkSpot "group" none ignored
  have derived := through.derivations
  rw [computed] at derived
  refine ⟨fork_tree_built, ignored, rfl, computed, ?_, through⟩
  generalize forkEngine.derivations
    (forkEngine.traverse (forkTree.wrap forkSpot "group" none)) = result at derived
  cases derived with
  | ambiguous strict position state => rfl

/-- A test of the symbol of a node and of its place among its siblings. -/
structure PlaceTest where
  symbol : String
  index : Nat
  deriving DecidableEq

instance {π : Type v} : Matches PlaceTest (Node π) where
  passes test node := node.symbol == test.symbol && node.index == test.index

/-- Two numbers, one after the other, each of them a first child. -/
def firstNumbers : Engine PlaceTest where
  automata := #[{
    start := 0
    accepting := .ofList [2]
    table := TransitionTable.empty
      |>.add 0 (.consume ⟨"num", 0⟩) 1
      |>.add 1 (.consume ⟨"num", 0⟩) 2 }]

def secondSpot : sumTree.Spot where
  parent := some 0
  offset := 1
  count := 1
  nonempty := Nat.zero_lt_one
  fits := Nat.le_refl 2

/-- Tests of places are not transparent: below a node that no test passes, the second number is a
first child, and the numbers match. -/
theorem place_tests_see_new_node :
    sumTree.Built ∧
      (∀ automaton ∈ firstNumbers.automata,
        automaton.Ignores (secondSpot.wrapper "group" none)) ∧
      Tree.ofSteps "sum" [.leaf "num" "1", .node "group" [.leaf "num" "2"]] =
        .ok (sumTree.wrap secondSpot "group" none) ∧
      firstNumbers.acceptedSteps (firstNumbers.traverse sumTree) = .ok [] ∧
      firstNumbers.acceptedSteps (firstNumbers.traverse (sumTree.wrap secondSpot "group" none)) =
        .ok [⟨some 1, 1, 3, 2, 0⟩] ∧
      ¬ firstNumbers.SeesThrough secondSpot "group" none := by
  have ignored : ∀ automaton ∈ firstNumbers.automata,
      automaton.Ignores (secondSpot.wrapper "group" none) := by
    decide +kernel
  have nothing : firstNumbers.acceptedSteps (firstNumbers.traverse sumTree) = .ok [] := by
    decide +kernel
  have something : firstNumbers.acceptedSteps
      (firstNumbers.traverse (sumTree.wrap secondSpot "group" none)) =
        .ok [⟨some 1, 1, 3, 2, 0⟩] := by
    decide +kernel
  refine ⟨sum_tree_built, ignored, rfl, nothing, something, ?_⟩
  intro through
  obtain ⟨accepted, old, new⟩ := through.accepted
  rw [nothing, Except.ok.injEq] at old
  rw [something, ← old, List.map_nil, Except.ok.injEq] at new
  cases new

end Engine

end TreePattern
