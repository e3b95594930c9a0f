import TreePattern.Proofs.Automaton.Accessible

/-!
# First matches in a reduced automaton

Following first matching transitions commits to one state where the simulation keeps a set. After
subset construction nothing is lost by that if tests that pass a common value are equal: the state
stands for a set of states of the original, and these are the ones that the original reaches on the
same word. Literals are such tests. A literal passes the values equal to its own, so two literals
that pass one value are equal, and not-a-number passes nothing.
-/

set_option autoImplicit false

namespace TreePattern

universe u v

namespace Automaton

section Tests

variable {κ : Type u} {υ : Type v} [BEq κ] [Matches κ υ] [LawfulTests κ υ]
  {automaton dfa : Automaton κ} {found : List (List Nat)}

theorem SubsetOf.exists_run_first (subset : automaton.SubsetOf dfa found)
    (apart : automaton.TestsApart υ) {word : List υ} {target : Nat}
    (path : automaton.Path automaton.start word target) :
    ∃ state members, dfa.runFirst? dfa.start word = some state ∧
      found[state]? = some members ∧ target ∈ members := by
  obtain ⟨state, members, rest, numbered, member⟩ := subset.start_path_forth path
  have run := ((subset.unambiguous apart).run_first_iff_path dfa.start state word).2 rest
  exact ⟨state, members, run, numbered, member⟩

/-- The set behind the state that first matches arrive in is what the original reaches. -/
theorem SubsetOf.members_of_run_first (subset : automaton.SubsetOf dfa found)
    (apart : automaton.TestsApart υ) {word : List υ} {state : Nat}
    (run : dfa.runFirst? dfa.start word = some state) :
    ∃ members, found[state]? = some members ∧
      ∀ target, target ∈ members ↔ automaton.Path automaton.start word target := by
  obtain ⟨members, numbered, back⟩ := subset.start_path_back (path_of_run_first run)
  refine ⟨members, numbered, fun target => ⟨back target, ?_⟩⟩
  intro path
  obtain ⟨other, reached, otherRun, otherNumbered, member⟩ := subset.exists_run_first apart path
  rw [run, Option.some.injEq] at otherRun
  subst otherRun
  rw [numbered, Option.some.injEq] at otherNumbered
  exact otherNumbered ▸ member

theorem SubsetOf.run_first_accepts_iff (subset : automaton.SubsetOf dfa found)
    (apart : automaton.TestsApart υ) (word : List υ) :
    (∃ state, dfa.runFirst? dfa.start word = some state ∧ dfa.isAccepting state = true) ↔
      automaton.HasAcceptingPath word := by
  constructor
  · intro arrives
    obtain ⟨state, run, accepts⟩ := arrives
    obtain ⟨members, numbered, reached⟩ := subset.members_of_run_first apart run
    obtain ⟨others, same, target, member, accepting⟩ := (subset.accepting state).1 accepts
    rw [numbered, Option.some.injEq] at same
    exact ⟨target, (reached target).1 (same ▸ member), accepting⟩
  · intro accepting
    obtain ⟨target, path, accepts⟩ := accepting
    obtain ⟨state, members, run, numbered, member⟩ := subset.exists_run_first apart path
    exact ⟨state, run, (subset.accepting state).2 ⟨members, numbered, target, member, accepts⟩⟩

end Tests

section Literals

variable {α : Type u} [BEq α] [PartialEquivBEq α]

theorem literals_apart (automaton : Automaton (Literal α)) : automaton.TestsApart α := by
  intro left right _ _ value leftPasses rightPasses
  rw [Literal.passes_def] at leftPasses rightPasses
  rw [Literal.beq_def]
  exact PartialEquivBEq.trans leftPasses (PartialEquivBEq.symm rightPasses)

/-- On a reduced automaton over literals, first matches along a word exist for every value and end
in an accepting state exactly if the simulation of the original automaton accepts the word. -/
theorem reduced_literals_first_matches_accept (automaton dfa : Automaton (Literal α))
    (reduced : automaton.toDfa = .ok dfa) (word : List α) :
    (∃ state, dfa.runFirst? dfa.start word = some state ∧ dfa.isAccepting state = true) ↔
      automaton.accepts word = true := by
  obtain ⟨found, subset⟩ := subset_of_to_dfa reduced
  rw [accepts_iff_accepting_path]
  exact subset.run_first_accepts_iff automaton.literals_apart word

end Literals

theorem reduced_literals_first_matches_accept_zeros :
    let zero := (signedZero false).value
    let minusZero := (signedZero true).value
    zeros.toDfa = .ok zerosReduced ∧ zeros.accepts [minusZero, zero] = true ∧
      (∃ state, zerosReduced.runFirst? zerosReduced.start [minusZero, zero] = some state ∧
        zerosReduced.isAccepting state = true) ∧
      ¬ ∃ state, zerosReduced.runFirst? zerosReduced.start [zero, Binary64.nan] = some state ∧
        zerosReduced.isAccepting state = true := by
  intro zero minusZero
  have reduced : zeros.toDfa = .ok zerosReduced := rfl
  have accepted : zeros.accepts [minusZero, zero] = true := by decide +kernel
  have refused : ¬ zeros.accepts [zero, Binary64.nan] = true := by decide +kernel
  refine ⟨reduced, accepted, ?_, ?_⟩
  · exact (reduced_literals_first_matches_accept zeros zerosReduced reduced _).2 accepted
  · exact fun arrives =>
      refused ((reduced_literals_first_matches_accept zeros zerosReduced reduced _).1 arrives)

end Automaton

end TreePattern
