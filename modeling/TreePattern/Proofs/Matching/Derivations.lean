import TreePattern.Proofs.Automaton.Acceptance
import TreePattern.Proofs.Matching.Accepted
import TreePattern.Proofs.Matching.Chains

/-!
# Derivations are matches

Under the first policy each accepted step has one derivation. It is a chain of recorded steps whose
nodes are a cut of the root, and since following first matching transitions is one way of following
a path, the automaton of the step accepts these nodes.
-/

set_option autoImplicit false

namespace TreePattern

universe u v

variable {κ : Type u} {π : Type v} [Matches κ (Node π)]

/-- The steps are a match of the automaton from its start: each goes on where the one before it
ended, and they consume a cut of the root that the automaton accepts as a whole. -/
structure Automaton.Derives (automaton : Automaton κ) (traversal : Traversal π) (index : Nat)
    (steps : List Step) : Prop where
  begins : ∃ first, steps.head? = some first ∧ first.last = none ∧ first.source = automaton.start
  linked : steps.IsChain Step.HandsTo
  sameAutomaton : ∀ step ∈ steps, step.automaton = index
  increasing : steps.Pairwise (·.position < ·.position)
  consumes : ∃ nodes values, Engine.consumedNodes traversal steps = .ok nodes ∧
    traversal.tree.Cut Tree.root nodes ∧ traversal.tree.Frontier nodes ∧
    nodes.mapM traversal.tree.get? = some values ∧ automaton.accepts values = true

namespace Engine

variable {engine : Engine κ} {tree : Tree π} {traversal : Traversal π}

theorem consumed_nodes_eq (visited : engine.Visited tree tree.size traversal) {steps : List Step}
    (bound : ∀ step ∈ steps, step.position < tree.size) :
    consumedNodes traversal steps = .ok (steps.map (·.position)) := by
  unfold consumedNodes
  induction steps with
  | nil => rfl
  | cons step rest induction =>
      rw [List.mapM_cons, visited.node_at (bound step List.mem_cons_self),
        induction fun other member => bound other (List.mem_cons_of_mem step member)]
      rfl

theorem map_m_ending {action : Step → Except Failure (List Step)} {property : List Step → Prop}
    {accepted : List Step}
    (each : ∀ step ∈ accepted, ∃ steps, action step = .ok steps ∧ steps.getLast? = some step ∧
      property steps) :
    ∃ found, accepted.mapM action = .ok found ∧ found.map List.getLast? = accepted.map some ∧
      ∀ steps ∈ found, property steps := by
  induction accepted with
  | nil => exact ⟨[], rfl, rfl, fun _ impossible => absurd impossible List.not_mem_nil⟩
  | cons step rest induction =>
      obtain ⟨steps, done, last, holds⟩ := each step List.mem_cons_self
      obtain ⟨found, others, lasts, hold⟩ :=
        induction fun other member => each other (List.mem_cons_of_mem step member)
      refine ⟨steps :: found, ?_, ?_, List.forall_mem_cons.2 ⟨holds, hold⟩⟩
      · rw [List.mapM_cons, done, others]
        rfl
      · rw [List.map_cons, List.map_cons, last, lasts]

theorem chain_derives (ordered : tree.IsPreorder)
    (visited : engine.Visited tree tree.size traversal) {automaton : Automaton κ} {index : Nat}
    {steps : List Step} {step : Step} (chain : automaton.Chain tree index steps step)
    (fills : tree.Fills step.position tree.size)
    (accepting : automaton.isAccepting step.target = true) :
    automaton.Derives traversal index steps := by
  have advances := chain.advances fills
  have cut := (ordered.cut_iff _).2 advances
  refine ⟨chain.start_step, chain.linked, chain.same_automaton, ?_, ?_⟩
  · exact List.pairwise_map.1 advances.increasing
  · obtain ⟨values, known, run⟩ := Option.bind_eq_some_iff.1 chain.run
    refine ⟨steps.map (·.position), values, ?_, ?_, ?_, ?_, ?_⟩
    · apply consumed_nodes_eq visited
      intro member isMember
      exact advances.members_known member.position (List.mem_map_of_mem isMember)
    · rw [visited.sameTree]
      exact cut
    · rw [visited.sameTree]
      exact ordered.cut_frontier cut
    · rw [visited.sameTree]
      exact known
    · rw [Automaton.accepts_iff_accepting_path]
      exact ⟨step.target, Automaton.path_of_run_first run, accepting⟩

theorem exists_derivation (ordered : tree.IsPreorder)
    (visited : engine.Visited tree tree.size traversal) (policy : engine.policy = .first)
    {step : Step} (finishes : engine.Finishes tree step) :
    ∃ steps, engine.derivationOf traversal step = .ok steps ∧ steps.getLast? = some step ∧
      ∃ (index : Nat) (automaton : Automaton κ), engine.automata[index]? = some automaton ∧
        automaton.Derives traversal index steps := by
  obtain ⟨automaton, known, fills, passes, accepting⟩ := finishes
  have size := visited.visited_size
  have bound := fills.lt_size
  obtain ⟨steps, followed, chain⟩ := follow_back_chain visited policy known
    (traversal.visited.size + 1) step [] passes (by omega)
  rw [List.append_nil] at followed
  have derives := chain_derives ordered visited chain fills accepting
  exact ⟨steps, followed, chain.last_step, step.automaton, automaton, known, derives⟩

/-- Under the first policy the derivations can be told, there is one for each accepted step, in the
same order and ending in it, and each of them is a match. -/
theorem derivations_are_matches (engine : Engine κ) (policy : engine.policy = .first)
    {tree : Tree π} (built : tree.Built) :
    ∃ accepted found, engine.acceptedSteps (engine.traverse tree) = .ok accepted ∧
      engine.derivations (engine.traverse tree) = .ok found ∧
      found.map List.getLast? = accepted.map some ∧
      ∀ steps ∈ found, ∃ (index : Nat) (automaton : Automaton κ),
        engine.automata[index]? = some automaton ∧
          automaton.Derives (engine.traverse tree) index steps := by
  have ordered := built.is_preorder
  have visited := engine.visited_traverse ordered
  have accepted := accepted_steps_eq ordered visited
  obtain ⟨found, derived, lasts, matched⟩ := map_m_ending fun step member =>
    exists_derivation ordered visited policy ((mem_accepted_iff ordered visited step).1 member)
  refine ⟨_, found, accepted, ?_, lasts, matched⟩
  unfold derivations
  rw [accepted]
  exact derived

theorem derivations_are_matches_sum_tree :
    twoNumbers.policy = .first ∧
      twoNumbers.derivations (twoNumbers.traverse sumTree) =
        .ok [[⟨none, 0, 1, 1, 0⟩, ⟨some 1, 1, 2, 2, 0⟩]] ∧
      ∃ (index : Nat) (automaton : Automaton NodeTest),
        twoNumbers.automata[index]? = some automaton ∧
          automaton.Derives (twoNumbers.traverse sumTree) index
            [⟨none, 0, 1, 1, 0⟩, ⟨some 1, 1, 2, 2, 0⟩] := by
  have computed : twoNumbers.derivations (twoNumbers.traverse sumTree) =
      .ok [[⟨none, 0, 1, 1, 0⟩, ⟨some 1, 1, 2, 2, 0⟩]] := by
    decide +kernel
  obtain ⟨accepted, found, -, derived, -, matched⟩ :=
    derivations_are_matches twoNumbers rfl sum_tree_built
  rw [computed, Except.ok.injEq] at derived
  subst derived
  exact ⟨rfl, computed, matched _ List.mem_cons_self⟩

end Engine

end TreePattern
