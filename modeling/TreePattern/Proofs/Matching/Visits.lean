import TreePattern.Proofs.Matching.Recorded
import TreePattern.Proofs.Tree.Preorder

/-!
# What a traversal records

One visit records at a node exactly the attempts and steps that belong there, provided that all
nodes before it were visited. A traversal visits the nodes in the order of their indices, so in the
end the fields of all nodes are right and each node has its index as its position, whatever was
recorded before.
-/

set_option autoImplicit false

namespace TreePattern

universe u v

variable {κ : Type u} {π : Type v} [Matches κ (Node π)]

/-- The field holds, for each automaton, the attempts and steps that belong to the node. -/
structure Engine.Records (engine : Engine κ) (tree : Tree π) (id : Nat) (field : Field) : Prop where
  position : field.position = some id
  stepLists : field.steps.size = engine.automata.size
  attempts : ∀ (index : Nat) (automaton : Automaton κ), engine.automata[index]? = some automaton →
    ∃ attempts, field.attempts[index]? = some attempts ∧
      ∀ attempt, attempt ∈ attempts ↔ automaton.Enters tree index id attempt
  steps : ∀ (index : Nat) (automaton : Automaton κ), engine.automata[index]? = some automaton →
    ∃ steps, field.steps[index]? = some steps ∧
      ∀ step, step ∈ steps ↔ automaton.Passes tree index id step

structure Engine.Visited (engine : Engine κ) (tree : Tree π) (count : Nat)
    (traversal : Traversal π) : Prop where
  sameTree : traversal.tree = tree
  visited : traversal.visited.toList = List.range count
  size : traversal.fields.size = tree.size
  records : ∀ id < count, ∃ field, traversal.fields[id]? = some field ∧
    engine.Records tree id field

/-- Each node of the tree has its own index as its position, and there are no other positions. -/
structure Traversal.InPlace (traversal : Traversal π) (tree : Tree π) : Prop where
  position : ∀ id, traversal.positionOf? id = if id < tree.size then some id else none
  inverse : ∀ position id,
    traversal.nodeOf? position = some id ↔ traversal.positionOf? id = some position
  outside : ∀ position, traversal.nodeOf? position = none ↔ tree.size ≤ position

namespace Engine

variable {engine : Engine κ} {tree : Tree π} {count : Nat} {traversal : Traversal π}

namespace Visited

section Lookups

variable {id index : Nat} {automaton : Automaton κ}

theorem visited_size (visited : engine.Visited tree count traversal) :
    traversal.visited.size = count := by
  rw [← Array.length_toList, visited.visited, List.length_range]

theorem mem_attempts_at (visited : engine.Visited tree count traversal) (bound : id < count)
    (known : engine.automata[index]? = some automaton) (attempt : Attempt) :
    attempt ∈ traversal.attemptsAt id index ↔ automaton.Enters tree index id attempt := by
  obtain ⟨field, found, records⟩ := visited.records id bound
  obtain ⟨attempts, listed, members⟩ := records.attempts index automaton known
  simp only [Traversal.attemptsAt, found, Option.bind_some, listed, Option.getD_some, members]

theorem mem_steps_at (visited : engine.Visited tree count traversal) (bound : id < count)
    (known : engine.automata[index]? = some automaton) (step : Step) :
    step ∈ traversal.stepsAt id index ↔ automaton.Passes tree index id step := by
  obtain ⟨field, found, records⟩ := visited.records id bound
  obtain ⟨steps, listed, members⟩ := records.steps index automaton known
  simp only [Traversal.stepsAt, found, Option.bind_some, listed, Option.getD_some, members]

theorem mem_all_steps_at (visited : engine.Visited tree count traversal) (bound : id < count)
    (step : Step) :
    step ∈ traversal.allStepsAt id ↔ ∃ automaton,
      engine.automata[step.automaton]? = some automaton ∧
        automaton.Passes tree step.automaton id step := by
  obtain ⟨field, found, records⟩ := visited.records id bound
  simp only [Traversal.allStepsAt, found, Option.map_some, Option.getD_some, List.mem_flatten,
    Array.mem_toList_iff]
  constructor
  · intro listed
    obtain ⟨steps, member, inSteps⟩ := listed
    obtain ⟨index, bound, same⟩ := Array.mem_iff_getElem.1 member
    rw [records.stepLists] at bound
    have known := Array.getElem?_eq_getElem bound
    obtain ⟨others, found, members⟩ := records.steps index _ known
    rw [Array.getElem?_eq_getElem (records.stepLists.symm ▸ bound), Option.some.injEq] at found
    rw [← same, found] at inSteps
    have passes := (members step).1 inSteps
    have named := ((Automaton.passes_iff step).1 passes).1
    subst named
    exact ⟨_, known, passes⟩
  · intro passes
    obtain ⟨automaton, known, passes⟩ := passes
    obtain ⟨steps, listed, members⟩ := records.steps _ _ known
    exact ⟨steps, Array.mem_of_getElem? listed, (members step).2 passes⟩

theorem position_of (visited : engine.Visited tree count traversal) (bound : id < count) :
    traversal.positionOf? id = some id := by
  obtain ⟨field, found, records⟩ := visited.records id bound
  simp only [Traversal.positionOf?, found, Option.bind_some, records.position]

theorem last_position (visited : engine.Visited tree count traversal) {nodes : List Nat}
    (bound : ∀ id ∈ nodes, id < count) :
    nodes.getLast?.bind traversal.positionOf? = nodes.getLast? := by
  cases last : nodes.getLast? with
  | none => rfl
  | some id => exact visited.position_of (bound id (List.mem_of_getLast? last))

theorem node_eq (visited : engine.Visited tree count traversal) (position : Nat) :
    traversal.nodeOf? position = if position < count then some position else none := by
  rw [Traversal.nodeOf?, ← Array.getElem?_toList, visited.visited]
  by_cases bound : position < count
  · rw [if_pos bound, List.getElem?_range bound]
  · rw [if_neg bound, List.getElem?_eq_none]
    rw [List.length_range]
    exact Nat.le_of_not_lt bound

theorem node_at (visited : engine.Visited tree count traversal) (bound : id < count) :
    traversal.nodeAt id = .ok id := by
  simp only [Traversal.nodeAt, visited.node_eq, if_pos bound]

end Lookups

theorem position_eq (visited : engine.Visited tree tree.size traversal) (id : Nat) :
    traversal.positionOf? id = if id < tree.size then some id else none := by
  by_cases bound : id < tree.size
  · rw [if_pos bound, visited.position_of bound]
  · have unknown : traversal.fields[id]? = none := by
      apply Array.getElem?_eq_none
      rw [visited.size]
      exact Nat.le_of_not_lt bound
    rw [if_neg bound, Traversal.positionOf?, unknown]
    rfl

theorem in_place (visited : engine.Visited tree tree.size traversal) :
    traversal.InPlace tree where
  position := visited.position_eq
  inverse position id := by
    rw [visited.position_eq, visited.node_eq]
    by_cases same : position = id
    · rw [same]
    · have back : ¬ id = position := fun given => same given.symm
      split <;> split <;> simp [same, back]
  outside position := by
    rw [visited.node_eq]
    split <;> simp <;> omega

theorem mem_entering_attempts (ordered : tree.IsPreorder)
    {id : Nat} (visited : engine.Visited tree id traversal) {node : Node π}
    (found : tree.get? id = some node) {index : Nat} {automaton : Automaton κ}
    (known : engine.automata[index]? = some automaton) (attempt : Attempt) :
    attempt ∈ enteringAttempts traversal id node index automaton ↔
      automaton.Enters tree index id attempt := by
  unfold enteringAttempts Node.kind
  rcases ordered.locate found with isRoot | hangs
  · obtain ⟨rfl, noParent, -⟩ := isRoot
    rw [if_pos (by simp only [Node.isRoot, noParent, Option.isNone_none]),
      Automaton.enters_root_iff, List.mem_singleton]
  · have above := hangs
    cases above with
    | @under outer last above outerFound spans listed up =>
        rw [if_neg (by simp only [Node.isRoot, up, Option.isNone_some, Bool.false_eq_true,
          not_false_eq_true])]
        have before := (ordered.parent_fills found up).1
        by_cases first : node.index = 0
        · rw [first] at listed
          have next := spans.first_child listed
          have inner : above.children ≠ [] := by
            intro blank
            rw [blank] at listed
            cases listed
          simp only [if_pos first, up, Option.getD_some]
          rw [visited.mem_attempts_at before known, next,
            Automaton.enters_first_child_iff ordered outerFound inner]
        · obtain ⟨sibling, isPrevious, fills, earliest⟩ := hangs.previous_sibling found first
          have bound := Tree.lt_size_of_found found
          simp only [if_neg first, visited.sameTree, isPrevious, Option.getD_some]
          rw [mem_order_by_key fun _ _ => Attempt.key_injective, List.mem_flatMap,
            Automaton.enters_stop_iff ordered fills]
          constructor
          · intro handed
            obtain ⟨other, onPath, mapped⟩ := handed
            obtain ⟨step, recorded, handoff⟩ := List.mem_map.1 mapped
            have otherFills :=
              ((Tree.mem_rightmost_path fills (Nat.le_of_lt bound) other).1 onPath).2
            have passes := (visited.mem_steps_at otherFills.lt_stop known step).1 recorded
            exact ⟨other, step, otherFills, passes, handoff⟩
          · intro handed
            obtain ⟨other, step, otherFills, passes, handoff⟩ := handed
            have recorded := (visited.mem_steps_at otherFills.lt_stop known step).2 passes
            have onPath := (Tree.mem_rightmost_path fills (Nat.le_of_lt bound) other).2
              ⟨earliest other otherFills, otherFills⟩
            exact ⟨other, onPath, List.mem_map.2 ⟨step, recorded, handoff⟩⟩

theorem mem_pass_through (ordered : tree.IsPreorder) {id : Nat}
    (visited : engine.Visited tree id traversal) {node : Node π} (found : tree.get? id = some node)
    {index : Nat} {automaton : Automaton κ} (known : engine.automata[index]? = some automaton)
    (step : Step) :
    step ∈ passThrough automaton node id (enteringAttempts traversal id node index automaton) ↔
      automaton.Passes tree index id step := by
  have entering := visited.mem_entering_attempts ordered found known
  simp only [passThrough, List.mem_filterMap, Option.map_eq_some_iff]
  constructor
  · intro moved
    obtain ⟨attempt, member, target, moves, whole⟩ := moved
    exact ⟨attempt, node, target, (entering attempt).1 member, found, moves, whole.symm⟩
  · intro passes
    obtain ⟨attempt, node', target, enters, found', moves, whole⟩ := passes
    rw [found] at found'
    cases found'
    exact ⟨attempt, (entering attempt).2 enters, target, moves, whole.symm⟩

theorem visit (ordered : tree.IsPreorder) (bound : count < tree.size)
    (visited : engine.Visited tree count traversal) :
    engine.Visited tree (count + 1) (engine.visit traversal count) := by
  obtain ⟨node, found⟩ := Tree.exists_of_lt_size bound
  unfold Engine.visit
  rw [visited.sameTree, found]
  refine ⟨rfl, ?_, ?_, ?_⟩
  · rw [Array.toList_push, visited.visited, List.range_succ]
  · rw [Array.size_setIfInBounds, visited.size]
  · intro id idBound
    simp only [Array.getElem?_setIfInBounds]
    by_cases isNew : count = id
    · subst isNew
      rw [if_pos rfl, if_pos (visited.size ▸ bound), visited.visited_size]
      refine ⟨_, rfl, rfl, Array.size_mapIdx, ?_, ?_⟩
      · intro index automaton known
        refine ⟨enteringAttempts traversal count node index automaton, ?_, ?_⟩
        · rw [Array.getElem?_mapIdx, known]
          rfl
        · exact visited.mem_entering_attempts ordered found known
      · intro index automaton known
        refine ⟨passThrough automaton node count
          (enteringAttempts traversal count node index automaton), ?_, ?_⟩
        · simp only [Array.getElem?_mapIdx, known, Option.map_some, Option.getD_some]
        · exact visited.mem_pass_through ordered found known
    · rw [if_neg isNew]
      exact visited.records id (by omega)

end Visited

theorem visited_range (engine : Engine κ) (traversal : Traversal π)
    (ordered : traversal.tree.IsPreorder) (size : traversal.fields.size = traversal.tree.size)
    (count : Nat) (bound : count ≤ traversal.tree.size) :
    engine.Visited traversal.tree count
      ((List.range count).foldl engine.visit (traversal.reset engine.automata.size)) := by
  induction count with
  | zero =>
      refine ⟨rfl, rfl, ?_, ?_⟩
      · rw [List.range_zero, List.foldl_nil, Traversal.reset, Array.size_map, size]
      · intro id impossible
        exact absurd impossible (Nat.not_lt_zero id)
  | succ count induction =>
      rw [List.range_succ, List.foldl_append, List.foldl_cons, List.foldl_nil]
      exact (induction (by omega)).visit ordered bound

/-- A traversal visits all nodes, whatever another engine or an earlier visit left. -/
theorem visited_retraverse (engine : Engine κ) (traversal : Traversal π)
    (ordered : traversal.tree.IsPreorder) (size : traversal.fields.size = traversal.tree.size) :
    engine.Visited traversal.tree traversal.tree.size (engine.retraverse traversal) := by
  unfold retraverse
  rw [ordered.preorder_eq]
  exact engine.visited_range traversal ordered size traversal.tree.size (Nat.le_refl _)

theorem visited_traverse (engine : Engine κ) {tree : Tree π} (ordered : tree.IsPreorder) :
    engine.Visited tree tree.size (engine.traverse tree) :=
  engine.visited_retraverse (.blank tree engine.automata.size) ordered Array.size_replicate

end Engine

end TreePattern
