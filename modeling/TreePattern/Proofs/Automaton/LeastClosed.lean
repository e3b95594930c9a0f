import Mathlib.Order.Bounds.Defs
import TreePattern.Proofs.Automaton.Closure
import TreePattern.Proofs.Automaton.FiniteSets

/-!
# The closure is the least closed set

A queue that expands the waiting states in turn needs no count to run empty: every state of the
closure waits once and is expanded once, so there are as many turns as the closure has states,
whatever cycles the silent transitions form. The set left at the end is the least one that holds
the given states and is closed under silent transitions. Closures therefore grow with the set, add
nothing to a closure, and commute with unions.
-/

set_option autoImplicit false

namespace TreePattern

universe u

namespace Automaton

variable {κ : Type u}

/-- Expanding the first waiting state, turn after turn until none waits, leads from the states
reached so far to all those reached at the end. States that are new wait behind all others;
`expanded` lists the states in the order of their turns. -/
inductive Explores (automaton : Automaton κ) :
    List Nat → StateSet → List Nat → StateSet → Prop where
  | done (reached : StateSet) : Explores automaton [] reached [] reached
  | expand {state : Nat} {waiting expanded : List Nat} {reached final : StateSet}
      (rest : Explores automaton
        (waiting ++ (addFresh (automaton.epsilonTargets state) reached).1)
        (addFresh (automaton.epsilonTargets state) reached).2 expanded final) :
      Explores automaton (state :: waiting) reached (state :: expanded) final

def SilentlyClosed (automaton : Automaton κ) (states : Set Nat) : Prop :=
  ∀ source ∈ states, ∀ transition ∈ automaton.transitions source,
    transition.condition = .epsilon → transition.destination ∈ states

variable {automaton : Automaton κ}

theorem add_fresh_perm (states : List Nat) (reached : StateSet) :
    (addFresh states reached).2.toList.Perm ((addFresh states reached).1 ++ reached.toList) := by
  induction states generalizing reached with
  | nil => exact List.Perm.refl _
  | cons state rest induction =>
      unfold addFresh
      split
      · exact induction reached
      · rename_i new
        have later := induction (reached.insert state)
        generalize addFresh rest (reached.insert state) = result at later ⊢
        calc
          List.Perm result.2.toList (result.1 ++ (reached.insert state).toList) := later
          List.Perm _ (result.1 ++ state :: reached.toList) :=
            (StateSet.to_list_insert_perm new).append_left result.1
          List.Perm _ (state :: result.1 ++ reached.toList) := List.perm_middle

theorem Exploration.reorder {seeds : StateSet} {waiting others : List Nat} {reached : StateSet}
    (valid : automaton.Exploration seeds waiting reached)
    (same : ∀ state, state ∈ waiting ↔ state ∈ others) :
    automaton.Exploration seeds others reached where
  seeded := valid.seeded
  waitingReached state member := valid.waitingReached state ((same state).2 member)
  sound := valid.sound
  frontier state member := (valid.frontier state member).imp_left (same state).1

namespace Explores

theorem exploration {seeds : StateSet} {waiting expanded : List Nat} {reached final : StateSet}
    (explores : automaton.Explores waiting reached expanded final)
    (valid : automaton.Exploration seeds waiting reached) :
    automaton.Exploration seeds [] final := by
  induction explores with
  | done => exact valid
  | expand _ later =>
      apply later
      apply valid.expand.reorder
      intro state
      rw [List.mem_append, List.mem_append]
      exact Or.comm

/-- Each reached state waits or has had its turn, and neither happens twice. -/
theorem reached_perm {before waiting expanded : List Nat} {reached final : StateSet}
    (explores : automaton.Explores waiting reached expanded final)
    (parts : reached.toList.Perm (before ++ waiting)) :
    final.toList.Perm (before ++ expanded) := by
  induction explores generalizing before with
  | done => exact parts
  | @expand state waiting expanded reached final _ later =>
      -- `before` holds the states that have had their turn, which `state` now joins.
      generalize queued : (addFresh (automaton.epsilonTargets state) reached).1 = fresh at later
      have now := add_fresh_perm (automaton.epsilonTargets state) reached
      rw [queued] at now
      have moved : final.toList.Perm (before ++ [state] ++ expanded) := by
        apply later
        calc
          List.Perm (addFresh (automaton.epsilonTargets state) reached).2.toList
              (fresh ++ reached.toList) := now
          List.Perm _ (fresh ++ (before ++ state :: waiting)) := parts.append_left fresh
          List.Perm _ (before ++ state :: waiting ++ fresh) := List.perm_append_comm
          _ = before ++ [state] ++ (waiting ++ fresh) := by
            simp only [List.append_assoc, List.cons_append, List.nil_append]
      rwa [List.append_assoc] at moved

end Explores

/-- The queue runs empty, because each turn takes a waiting state away and a state starts to wait
only when it is reached for the first time. -/
theorem exists_explores (automaton : Automaton κ) (count : Nat) {waiting : List Nat}
    {reached : StateSet} (enough : waiting.length + automaton.unreached reached ≤ count) :
    ∃ expanded final, automaton.Explores waiting reached expanded final := by
  induction count generalizing waiting reached with
  | zero =>
      have none : waiting = [] := List.eq_nil_of_length_eq_zero (by omega)
      subst none
      exact ⟨[], reached, .done reached⟩
  | succ count induction =>
      cases waiting with
      | nil => exact ⟨[], reached, .done reached⟩
      | cons state waiting =>
          have bound := automaton.length_fresh_add_unreached_le state reached
          obtain ⟨expanded, final, rest⟩ : ∃ expanded final, automaton.Explores
              (waiting ++ (addFresh (automaton.epsilonTargets state) reached).1)
              (addFresh (automaton.epsilonTargets state) reached).2 expanded final := by
            apply induction
            simp only [List.length_append, List.length_cons] at enough ⊢
            omega
          exact ⟨state :: expanded, final, .expand rest⟩

theorem closure_subset {states : StateSet} {larger : Set Nat}
    (holds : ∀ state, state ∈ states → state ∈ larger) (closed : automaton.SilentlyClosed larger)
    {target : Nat} (member : target ∈ automaton.closure states) : target ∈ larger := by
  obtain ⟨source, seeded, reach⟩ := (mem_closure ..).1 member
  apply reach.keeps _ (holds source seeded)
  intro state inside next leads
  obtain ⟨transition, leaving, silent, rfl⟩ := (mem_epsilon_targets ..).1 leads
  exact closed state inside transition leaving silent

theorem silently_closed_closure (automaton : Automaton κ) (states : StateSet) :
    automaton.SilentlyClosed {state | state ∈ automaton.closure states} := by
  intro source member transition leaving silent
  exact mem_closure_of_reach member (.step leaving silent (.refl _))

theorem is_least_closure (automaton : Automaton κ) (states : StateSet) :
    IsLeast {larger : Set Nat | (∀ state, state ∈ states → state ∈ larger) ∧
        automaton.SilentlyClosed larger}
      {state | state ∈ automaton.closure states} := by
  refine ⟨⟨fun _ => mem_closure_of_mem, automaton.silently_closed_closure states⟩, ?_⟩
  intro larger includes target member
  exact closure_subset includes.1 includes.2 member

theorem closure_mono {states larger : StateSet}
    (includes : ∀ state, state ∈ states → state ∈ larger) {state : Nat}
    (member : state ∈ automaton.closure states) : state ∈ automaton.closure larger :=
  closure_subset (fun other seeded => mem_closure_of_mem (includes other seeded))
    (automaton.silently_closed_closure larger) member

theorem closure_idempotent (automaton : Automaton κ) (states : StateSet) :
    (automaton.closure (automaton.closure states) == automaton.closure states) = true := by
  apply (StateSet.beq_iff _ _).2
  intro state
  constructor
  · exact closure_subset (fun _ => id) (automaton.silently_closed_closure states)
  · exact mem_closure_of_mem

theorem closure_union (automaton : Automaton κ) (left right : StateSet) :
    (automaton.closure (left.insertMany right.toList) ==
      (automaton.closure left).insertMany (automaton.closure right).toList) = true := by
  apply (StateSet.beq_iff _ _).2
  intro state
  simp only [StateSet.mem_insert_many, StateSet.mem_to_list, mem_closure]
  constructor
  · intro reached
    obtain ⟨source, inRight | inLeft, reach⟩ := reached
    · exact Or.inl ⟨source, inRight, reach⟩
    · exact Or.inr ⟨source, inLeft, reach⟩
  · intro reached
    obtain ⟨source, inRight, reach⟩ | ⟨source, inLeft, reach⟩ := reached
    · exact ⟨source, Or.inl inRight, reach⟩
    · exact ⟨source, Or.inr inLeft, reach⟩

/-- The queue runs empty after expanding each state of the closure exactly once. What it reaches is
what `closure` computes: the states within epsilon reach, the least set that holds the given
states and is closed under silent transitions. Closing once more adds nothing, a larger set has a
larger closure, and the closure of a union is the union of the closures. -/
theorem closure_least_closed (automaton : Automaton κ) (states : StateSet) :
    (∃ expanded final, automaton.Explores states.toList states expanded final ∧
      (final == automaton.closure states) = true ∧
        expanded.Perm (automaton.closure states).toList) ∧
      (∀ target, target ∈ automaton.closure states ↔
        ∃ source, source ∈ states ∧ automaton.EpsilonReach source target) ∧
      IsLeast {larger : Set Nat | (∀ state, state ∈ states → state ∈ larger) ∧
          automaton.SilentlyClosed larger}
        {state | state ∈ automaton.closure states} ∧
      (automaton.closure (automaton.closure states) == automaton.closure states) = true ∧
      (∀ larger : StateSet, (∀ state, state ∈ states → state ∈ larger) →
        ∀ state, state ∈ automaton.closure states → state ∈ automaton.closure larger) ∧
      ∀ other : StateSet, (automaton.closure (states.insertMany other.toList) ==
        (automaton.closure states).insertMany (automaton.closure other).toList) = true := by
  obtain ⟨expanded, final, explores⟩ :=
    automaton.exists_explores _ (Nat.le_refl (states.toList.length + _))
  have explored := explores.exploration (.initial automaton states)
  have same : (final == automaton.closure states) = true := by
    apply (StateSet.beq_iff _ _).2
    intro state
    rw [explored.mem_iff, mem_closure]
  have listed : final.toList = (automaton.closure states).toList := beq_iff_eq.1 same
  have waits : states.toList.Perm ([] ++ states.toList) := List.Perm.refl _
  have turns : (automaton.closure states).toList.Perm expanded := by
    rw [← listed]
    exact explores.reached_perm waits
  exact ⟨⟨expanded, final, explores, same, turns.symm⟩, mem_closure automaton states,
    automaton.is_least_closure states, automaton.closure_idempotent states,
    fun _ includes _ => closure_mono includes, automaton.closure_union states⟩

/-- Two states in a silent cycle, and a state that the table does not know. -/
example :
    let table := (TransitionTable.empty : TransitionTable Unit)
      |>.add 0 .epsilon 1 |>.add 1 .epsilon 0 |>.add 1 (.consume ()) 2
    (Automaton.closure ⟨0, .empty, table⟩ (.ofList [7, 1])).toList = [0, 1, 7] := by
  decide +kernel

end Automaton

end TreePattern
