import TreePattern.Proofs.Matching.SideBySide
import TreePattern.Proofs.Tree.Arena
import TreePattern.Proofs.Tree.Program

/-!
# Positions are indices

Building programs make well-formed arenas in depth-first pre-order, so a traversal gives each node
its own index as its position. Looking up the node of a position and the position of a node undo
each other, for every engine and whatever an earlier traversal left.
-/

set_option autoImplicit false

namespace TreePattern

universe u v w

variable {κ : Type u} {π : Type v} [Matches κ (Node π)]

namespace Engine

/-- Every building program whose payloads go to nodes made before returns a builder, which takes
further calls; the tree is a well-formed arena in pre-order, and every traversal of it, new or over
an earlier one, gives each node its own index as its position. -/
theorem built_tree_well_formed (engine : Engine κ) (symbol : String)
    {body after : List (BuildStep π)} (known : BuildStep.AllNameMade 1 (body ++ after)) :
    ∃ made returned others final,
      (TreeBuilder.root symbol).runSteps body = .ok (made, returned) ∧
      returned.runSteps after = .ok (others, final) ∧
      final.build.WellFormed ∧
      (engine.traverse final.build).InPlace final.build ∧
      ∀ earlier : Traversal π, Traversal.LeftOn.{w} final.build earlier →
        (engine.retraverse earlier).InPlace final.build := by
  obtain ⟨made, returned, others, final, ran, ranAfter⟩ :=
    TreeBuilder.exists_run_program symbol known
  have ordered := (TreeBuilder.built_of_run_steps ran ranAfter).is_preorder
  have placed := (engine.visited_traverse ordered).in_place
  refine ⟨made, returned, others, final, ran, ranAfter, ordered.well_formed, placed, ?_⟩
  intro earlier left
  rw [engine.retraverse_eq_traverse left.isOf]
  exact placed

/-- Two levels of nested declarations, with payloads for the current and for earlier nodes. -/
def nestedBody : List (BuildStep Nat) :=
  [.node "list" [.leaf "num" "1", .node "list" [.payload 7, .emptyLeaf "nil"], .payloadOf 2 5],
    .leaf "end" "."]

def nestedAfter : List (BuildStep Nat) := [.payload 1, .payloadOf 4 9, .emptyLeaf "tail"]

def nestedTree : Tree Nat where
  nodes := #[
    { symbol := "root", children := [1, 5, 6], payload := some 1 },
    { symbol := "list", parent := some 0, children := [2, 3] },
    { symbol := "num", value := some "1", parent := some 1, payload := some 5 },
    { symbol := "list", parent := some 1, children := [4], index := 1, payload := some 7 },
    { symbol := "nil", parent := some 3, payload := some 9 },
    { symbol := "end", value := some ".", parent := some 0, index := 1 },
    { symbol := "tail", parent := some 0, index := 2 }]

theorem built_tree_well_formed_nested :
    BuildStep.AllNameMade 1 (nestedBody ++ nestedAfter) ∧ nestedTree.WellFormed ∧
      (twoNumbers.traverse nestedTree).InPlace nestedTree := by
  have known : BuildStep.AllNameMade 1 (nestedBody ++ nestedAfter) := by
    simp [nestedBody, nestedAfter, BuildStep.AllNameMade, BuildStep.NamesMade, BuildStep.nodeCount,
      BuildStep.nodeCounts]
  obtain ⟨made, returned, others, final, ran, ranAfter, wellFormed, placed, -⟩ :=
    built_tree_well_formed.{0, 0, 0} twoNumbers "root" known
  cases ran
  cases ranAfter
  exact ⟨known, wellFormed, placed⟩

end Engine

end TreePattern
