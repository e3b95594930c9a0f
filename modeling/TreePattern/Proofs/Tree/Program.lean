import TreePattern.Proofs.Tree.Buildable

/-!
# Building programs run through

The only call on a builder that can fail is one that attaches a payload to a node not made yet. A
program whose payloads all go to nodes made before runs to its end, and makes as many nodes as it
declares, however its declarations are nested.
-/

set_option autoImplicit false

namespace TreePattern

universe u

variable {π : Type u}

namespace BuildStep

mutual

def nodeCount : BuildStep π → Nat
  | .leaf _ _ => 1
  | .emptyLeaf _ => 1
  | .node _ body => 1 + nodeCounts body
  | .payload _ => 0
  | .payloadOf _ _ => 0

def nodeCounts : List (BuildStep π) → Nat
  | [] => 0
  | step :: rest => nodeCount step + nodeCounts rest

end

mutual

/-- When `made` nodes were made before the step, it attaches payloads to nodes made before only. -/
def NamesMade (made : Nat) : BuildStep π → Prop
  | .leaf _ _ => True
  | .emptyLeaf _ => True
  | .node _ body => AllNameMade (made + 1) body
  | .payload _ => True
  | .payloadOf id _ => id < made

def AllNameMade (made : Nat) : List (BuildStep π) → Prop
  | [] => True
  | step :: rest => NamesMade made step ∧ AllNameMade (made + nodeCount step) rest

end

theorem all_name_made_append (made : Nat) (first more : List (BuildStep π)) :
    AllNameMade made (first ++ more) ↔
      AllNameMade made first ∧ AllNameMade (made + nodeCounts first) more := by
  induction first generalizing made with
  | nil => simp [AllNameMade, nodeCounts]
  | cons step rest induction =>
      simp only [List.cons_append, AllNameMade, nodeCounts, induction, Nat.add_assoc]
      exact and_assoc.symm

end BuildStep

namespace TreeBuilder

open BuildStep

def Stands (builder : TreeBuilder π) : Prop := builder.current < builder.nodes.size

/-- What a step or a program leads to: the same node is current, and `count` nodes are new. -/
structure Makes (builder after : TreeBuilder π) (count : Nat) : Prop where
  current : after.current = builder.current
  size : after.nodes.size = builder.nodes.size + count

theorem Makes.stands {builder after : TreeBuilder π} {count : Nat}
    (makes : builder.Makes after count) (stands : builder.Stands) : after.Stands := by
  unfold Stands at stands ⊢
  rw [makes.current, makes.size]
  omega

theorem exists_set_payload {builder : TreeBuilder π} {id : Nat} (known : id < builder.nodes.size)
    (payload : π) :
    ∃ after, builder.setPayload id payload = .ok after ∧ builder.Makes after 0 := by
  unfold setPayload
  rw [if_pos known]
  exact ⟨_, rfl, rfl, Array.size_modify⟩

mutual

theorem exists_run_step {builder : TreeBuilder π} (stands : builder.Stands) (step : BuildStep π)
    (known : step.NamesMade builder.nodes.size) :
    ∃ made after, builder.runStep step = .ok (made, after) ∧
      builder.Makes after step.nodeCount := by
  cases step with
  | leaf symbol value => exact ⟨_, _, rfl, rfl, builder.push_size symbol (some value)⟩
  | emptyLeaf symbol => exact ⟨_, _, rfl, rfl, builder.push_size symbol none⟩
  | node symbol body =>
      have grown := builder.push_size symbol none
      -- The body runs with the new node as the current one.
      have inside : Stands ⟨(builder.push symbol none).nodes, builder.nextId⟩ := by
        unfold Stands nextId
        rw [grown]
        exact Nat.lt_succ_self _
      obtain ⟨made, after, ran, makes⟩ := exists_run_steps inside body (grown.symm ▸ known)
      refine ⟨_, _, bind_eq_ok_iff.2 ⟨_, ran, rfl⟩, rfl, ?_⟩
      rw [makes.size, grown, nodeCount, Nat.add_assoc]
  | payload payload =>
      obtain ⟨after, ran, makes⟩ := exists_set_payload stands payload
      exact ⟨_, _, bind_eq_ok_iff.2 ⟨_, ran, rfl⟩, makes⟩
  | payloadOf id payload =>
      obtain ⟨after, ran, makes⟩ := exists_set_payload known payload
      exact ⟨_, _, bind_eq_ok_iff.2 ⟨_, ran, rfl⟩, makes⟩

theorem exists_run_steps {builder : TreeBuilder π} (stands : builder.Stands)
    (steps : List (BuildStep π)) (known : AllNameMade builder.nodes.size steps) :
    ∃ made after, builder.runSteps steps = .ok (made, after) ∧
      builder.Makes after (nodeCounts steps) := by
  cases steps with
  | nil => exact ⟨_, _, rfl, rfl, rfl⟩
  | cons step rest =>
      obtain ⟨first, others⟩ := known
      obtain ⟨made, between, ranStep, makes⟩ := exists_run_step stands step first
      obtain ⟨more, after, ranRest, makesRest⟩ :=
        exists_run_steps (makes.stands stands) rest (makes.size.symm ▸ others)
      refine ⟨_, _, bind_eq_ok_iff.2 ⟨_, ranStep, bind_eq_ok_iff.2 ⟨_, ranRest, rfl⟩⟩, ?_, ?_⟩
      · exact makesRest.current.trans makes.current
      · rw [makesRest.size, makes.size, nodeCounts, Nat.add_assoc]

end

theorem built_of_run_steps {symbol : String} {body after : List (BuildStep π)}
    {made others : List Nat} {returned final : TreeBuilder π}
    (ran : (TreeBuilder.root symbol).runSteps body = .ok (made, returned))
    (ranAfter : returned.runSteps after = .ok (others, final)) : final.build.Built :=
  .steps (bind_eq_ok_iff.2 ⟨_, run_steps_append ran ranAfter, rfl⟩)

/-- A builder returned for the root takes further calls as if they stood in the root's own body. -/
theorem exists_run_program (symbol : String) {body after : List (BuildStep π)}
    (known : AllNameMade 1 (body ++ after)) :
    ∃ made returned others final,
      (TreeBuilder.root symbol).runSteps body = .ok (made, returned) ∧
      returned.runSteps after = .ok (others, final) := by
  obtain ⟨first, more⟩ := (all_name_made_append 1 body after).1 known
  have opened : (TreeBuilder.root symbol : TreeBuilder π).Stands := Nat.zero_lt_one
  obtain ⟨made, returned, ran, makes⟩ := exists_run_steps opened body first
  obtain ⟨others, final, ranAfter, -⟩ :=
    exists_run_steps (makes.stands opened) after (makes.size.symm ▸ more)
  exact ⟨made, returned, others, final, ran, ranAfter⟩

end TreeBuilder

end TreePattern
