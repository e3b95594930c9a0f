import TreePattern.Automaton.Basic

/-!
# Paths through an automaton

A path follows transitions from one state to another: those that consume nothing leave the word as
it is, and each of the others consumes the next value, which must pass its test. Acceptance is
stated over paths alone, without any order on transitions and without sets of states.
-/

set_option autoImplicit false

namespace TreePattern

universe u v

namespace Automaton

variable {κ : Type u} {υ : Type v}

/-- `target` can be reached from `source` without consuming a value. -/
inductive EpsilonReach (automaton : Automaton κ) : Nat → Nat → Prop where
  | refl (state : Nat) : EpsilonReach automaton state state
  | step {source target : Nat} {transition : Transition κ}
      (leaving : transition ∈ automaton.transitions source)
      (silent : transition.condition = .epsilon)
      (rest : EpsilonReach automaton transition.destination target) :
      EpsilonReach automaton source target

inductive Path [Matches κ υ] (automaton : Automaton κ) : Nat → List υ → Nat → Prop where
  | refl (state : Nat) : Path automaton state [] state
  | epsilon {source target : Nat} {transition : Transition κ} {word : List υ}
      (leaving : transition ∈ automaton.transitions source)
      (silent : transition.condition = .epsilon)
      (rest : Path automaton transition.destination word target) :
      Path automaton source word target
  | value {source target : Nat} {transition : Transition κ} {value : υ} {word : List υ}
      (leaving : transition ∈ automaton.transitions source)
      (matching : transition.condition.accepts value = true)
      (rest : Path automaton transition.destination word target) :
      Path automaton source (value :: word) target

def HasAcceptingPath [Matches κ υ] (automaton : Automaton κ) (word : List υ) : Prop :=
  ∃ target, automaton.Path automaton.start word target ∧ automaton.isAccepting target = true

theorem EpsilonReach.trans {automaton : Automaton κ} {source middle target : Nat}
    (first : automaton.EpsilonReach source middle) (second : automaton.EpsilonReach middle target) :
    automaton.EpsilonReach source target := by
  induction first with
  | refl => exact second
  | step leaving silent _ induction => exact .step leaving silent (induction second)

theorem Path.append [Matches κ υ] {automaton : Automaton κ} {source middle target : Nat}
    {left right : List υ} (first : automaton.Path source left middle)
    (second : automaton.Path middle right target) :
    automaton.Path source (left ++ right) target := by
  induction first with
  | refl => exact second
  | epsilon leaving silent _ induction => exact .epsilon leaving silent (induction second)
  | value leaving matching _ induction => exact .value leaving matching (induction second)

theorem EpsilonReach.path [Matches κ υ] {automaton : Automaton κ} {source target : Nat}
    (reach : automaton.EpsilonReach source target) :
    automaton.Path source ([] : List υ) target := by
  induction reach with
  | refl => exact .refl _
  | step leaving silent _ induction => exact .epsilon leaving silent induction

end Automaton

end TreePattern
