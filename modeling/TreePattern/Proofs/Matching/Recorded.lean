import TreePattern.Matching.Traversal
import TreePattern.Proofs.Tree.Frontier

/-!
# What a traversal should record

An attempt enters a node if the automaton, run by first matching transitions past some nodes that
lead from the first edge of the tree to the edge in front of the node, is in the state of the
attempt, having consumed the attempt's last node last. The three ways in which attempts come to a
node follow from the three places where a node can stand.
-/

set_option autoImplicit false

namespace TreePattern

universe u v

variable {κ : Type u} {π : Type v} [Matches κ (Node π)]

namespace Automaton

def runAlong (automaton : Automaton κ) (tree : Tree π) (state : Nat) (ids : List Nat) :
    Option Nat :=
  (ids.mapM tree.get?).bind (automaton.runFirst? state)

/-- The attempt is one of those that should enter the node. -/
def Enters (automaton : Automaton κ) (tree : Tree π) (index id : Nat) (attempt : Attempt) : Prop :=
  attempt.automaton = index ∧ ∃ nodes, tree.Advances 0 nodes id ∧
    attempt.last = nodes.getLast? ∧
    automaton.runAlong tree automaton.start nodes = some attempt.state

/-- The step is one of those that should lead through the node. -/
def Passes (automaton : Automaton κ) (tree : Tree π) (index id : Nat) (step : Step) : Prop :=
  ∃ attempt node target, automaton.Enters tree index id attempt ∧ tree.get? id = some node ∧
    automaton.destination? attempt.state node = some target ∧ step = attempt.advance id target

variable {automaton : Automaton κ} {tree : Tree π} {index id : Nat}

theorem run_first_append (automaton : Automaton κ) (state : Nat) (first second : List (Node π)) :
    automaton.runFirst? state (first ++ second) =
      (automaton.runFirst? state first).bind (automaton.runFirst? · second) := by
  induction first generalizing state with
  | nil => rfl
  | cons node first induction =>
      rw [List.cons_append, runFirst?, runFirst?, Option.bind_assoc]
      simp only [induction]

theorem run_along_concat (automaton : Automaton κ) (tree : Tree π) (state : Nat)
    (ids : List Nat) (id target : Nat) :
    automaton.runAlong tree state (ids ++ [id]) = some target ↔
      ∃ source node, automaton.runAlong tree state ids = some source ∧
        tree.get? id = some node ∧ automaton.destination? source node = some target := by
  have whole : automaton.runAlong tree state (ids ++ [id]) =
      (automaton.runAlong tree state ids).bind fun source =>
        (tree.get? id).bind fun node => automaton.destination? source node := by
    unfold runAlong
    rw [List.mapM_append]
    cases known : ids.mapM tree.get? with
    | none => rfl
    | some nodes =>
        cases found : tree.get? id with
        | none => simp [found]
        | some node => simp [found, run_first_append, runFirst?]
  simp only [whole, Option.bind_eq_some_iff]
  constructor
  · intro reached
    obtain ⟨source, run, node, found, moved⟩ := reached
    exact ⟨source, node, run, found, moved⟩
  · intro reached
    obtain ⟨source, node, run, found, moved⟩ := reached
    exact ⟨source, run, node, found, moved⟩

/-- A step through a node ends a run along some nodes up to that node. -/
theorem passes_iff (step : Step) :
    automaton.Passes tree index id step ↔
      step.automaton = index ∧ step.position = id ∧ ∃ nodes, tree.Advances 0 nodes id ∧
        step.last = nodes.getLast? ∧
        automaton.runAlong tree automaton.start nodes = some step.source ∧
        automaton.runAlong tree automaton.start (nodes ++ [id]) = some step.target := by
  constructor
  · intro passes
    obtain ⟨attempt, node, target, enters, found, moved, whole⟩ := passes
    obtain ⟨named, nodes, advances, last, run⟩ := enters
    subst whole
    have onward := (run_along_concat automaton tree automaton.start nodes id target).2
      ⟨attempt.state, node, run, found, moved⟩
    exact ⟨named, rfl, nodes, advances, last, run, onward⟩
  · intro ends
    obtain ⟨stepLast, source, position, target, owner⟩ := step
    obtain ⟨named, same, nodes, advances, last, run, onward⟩ := ends
    cases same
    obtain ⟨before, node, run', found, moved⟩ := (run_along_concat ..).1 onward
    rw [run] at run'
    cases run'
    exact ⟨⟨stepLast, source, owner⟩, node, target, ⟨named, nodes, advances, last, run⟩, found,
      moved, rfl⟩

section Edges

variable {node : Node π}

theorem enters_root_iff (attempt : Attempt) :
    automaton.Enters tree index Tree.root attempt ↔
      attempt = ⟨none, automaton.start, index⟩ := by
  constructor
  · intro enters
    obtain ⟨last, state, owner⟩ := attempt
    obtain ⟨named, nodes, advances, lastNode, run⟩ := enters
    rw [Tree.advances_root_iff] at advances
    subst advances
    cases run
    cases named
    cases lastNode
    rfl
  · intro fresh
    subst fresh
    exact ⟨rfl, [], .refl 0, rfl, rfl⟩

theorem enters_first_child_iff (ordered : tree.IsPreorder) (found : tree.get? id = some node)
    (inner : node.children ≠ []) (attempt : Attempt) :
    automaton.Enters tree index (id + 1) attempt ↔ automaton.Enters tree index id attempt := by
  simp only [Enters, ordered.advances_first_child_iff found inner]

theorem enters_stop_iff {sibling : Nat} (ordered : tree.IsPreorder) {stop : Nat}
    (fills : tree.Fills sibling stop) (attempt : Attempt) :
    automaton.Enters tree index stop attempt ↔
      ∃ other step, tree.Fills other stop ∧ automaton.Passes tree index other step ∧
        step.handoff = attempt := by
  constructor
  · intro enters
    obtain ⟨attemptLast, state, owner⟩ := attempt
    obtain ⟨named, nodes, advances, last, run⟩ := enters
    obtain ⟨earlier, other, whole, before, otherFills⟩ :=
      (ordered.advances_stop_iff fills nodes).1 advances
    subst whole
    rw [List.getLast?_concat] at last
    cases named
    cases last
    obtain ⟨source, node, earlierRun, -, -⟩ := (run_along_concat ..).1 run
    have passes : automaton.Passes tree owner other
        ⟨earlier.getLast?, source, other, state, owner⟩ :=
      (passes_iff _).2 ⟨rfl, rfl, earlier, before, rfl, earlierRun, run⟩
    exact ⟨other, _, otherFills, passes, rfl⟩
  · intro handed
    obtain ⟨other, step, otherFills, passes, handoff⟩ := handed
    subst handoff
    obtain ⟨named, position, nodes, before, -, -, run⟩ := (passes_iff _).1 passes
    refine ⟨named, nodes ++ [other], ?_, ?_, run⟩
    · exact (ordered.advances_stop_iff fills _).2 ⟨nodes, other, rfl, before, otherFills⟩
    · rw [List.getLast?_concat]
      exact congrArg some position

end Edges

end Automaton

end TreePattern
