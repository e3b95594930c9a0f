import Mathlib.Data.List.Forall2
import TreePattern.Proofs.Automaton.Acceptance

/-!
# Acceptance by routes

A route is the list of the transitions taken one after the other. What it consumes can be read off
the list: silent transitions are passed over, and the tests on the others face the values of the
word one to one, in order. The simulation accepts a word just if a route from the start to an
accepting state consumes it.
-/

set_option autoImplicit false

namespace TreePattern

universe u v

def testsAlong {κ : Type u} (route : List (Transition κ)) : List κ :=
  route.filterMap (·.condition.test?)

/-- The tests of the route face the values of the word one to one, and each value passes. -/
def Consumes {κ : Type u} {υ : Type v} [Matches κ υ] (route : List (Transition κ))
    (word : List υ) : Prop :=
  List.Forall₂ (fun test value => Matches.passes test value = true) (testsAlong route) word

namespace Automaton

variable {κ : Type u} {υ : Type v}

inductive Route (automaton : Automaton κ) : Nat → List (Transition κ) → Nat → Prop where
  | here (state : Nat) : Route automaton state [] state
  | along {source target : Nat} {transition : Transition κ} {rest : List (Transition κ)}
      (leaving : transition ∈ automaton.transitions source)
      (onward : Route automaton transition.destination rest target) :
      Route automaton source (transition :: rest) target

section Tests

variable {transition : Transition κ} {rest : List (Transition κ)}

theorem tests_along_silent (silent : transition.condition = .epsilon) :
    testsAlong (transition :: rest) = testsAlong rest := by
  apply List.filterMap_cons_none
  rw [silent]
  rfl

theorem tests_along_test {test : κ} (isTest : transition.condition = .consume test) :
    testsAlong (transition :: rest) = test :: testsAlong rest := by
  apply List.filterMap_cons_some
  exact (Condition.test_eq_some_iff ..).2 isTest

variable [Matches κ υ]

theorem consumes_silent_iff (silent : transition.condition = .epsilon) (word : List υ) :
    Consumes (transition :: rest) word ↔ Consumes rest word := by
  rw [Consumes, tests_along_silent silent, Consumes]

theorem consumes_test_iff {test : κ} (isTest : transition.condition = .consume test)
    (word : List υ) :
    Consumes (transition :: rest) word ↔ ∃ value later, word = value :: later ∧
      Matches.passes test value = true ∧ Consumes rest later := by
  rw [Consumes, tests_along_test isTest, List.forall₂_cons_left_iff]
  constructor
  · intro faces
    obtain ⟨value, later, passes, consumes, same⟩ := faces
    exact ⟨value, later, same, passes, consumes⟩
  · intro faces
    obtain ⟨value, later, same, passes, consumes⟩ := faces
    exact ⟨value, later, passes, consumes, same⟩

end Tests

variable [Matches κ υ] {automaton : Automaton κ} {source target : Nat} {word : List υ}

theorem Path.exists_route (path : automaton.Path source word target) :
    ∃ route, automaton.Route source route target ∧ Consumes route word := by
  induction path with
  | refl state => exact ⟨[], .here state, .nil⟩
  | @epsilon _ _ transition _ leaving silent _ induction =>
      obtain ⟨route, onward, consumes⟩ := induction
      exact ⟨transition :: route, .along leaving onward, (consumes_silent_iff silent _).2 consumes⟩
  | @value _ _ transition value word leaving matching _ induction =>
      obtain ⟨route, onward, consumes⟩ := induction
      refine ⟨transition :: route, .along leaving onward, ?_⟩
      cases isTest : transition.condition with
      | epsilon =>
          rw [isTest, Condition.accepts_epsilon] at matching
          cases matching
      | consume test =>
          rw [isTest, Condition.accepts_consume] at matching
          exact (consumes_test_iff isTest _).2 ⟨value, word, rfl, matching, consumes⟩

theorem Route.path {route : List (Transition κ)} (leads : automaton.Route source route target)
    (consumes : Consumes route word) : automaton.Path source word target := by
  induction leads generalizing word with
  | here state =>
      cases consumes
      exact .refl state
  | @along _ _ transition rest leaving _ induction =>
      cases isTest : transition.condition with
      | epsilon =>
          exact .epsilon leaving isTest (induction ((consumes_silent_iff isTest _).1 consumes))
      | consume test =>
          obtain ⟨value, later, rfl, passes, onward⟩ := (consumes_test_iff isTest _).1 consumes
          have matching : transition.condition.accepts value = true := by
            rw [isTest, Condition.accepts_consume]
            exact passes
          exact .value leaving matching (induction onward)

/-- The simulation accepts a word exactly if some route from the start to an accepting state
consumes it: for any table, with silent cycles and repeated transitions, and whether or not the
start and the accepting states have rows. -/
theorem accepts_iff_consuming_route (automaton : Automaton κ) (word : List υ) :
    automaton.accepts word = true ↔
      ∃ route target, automaton.Route automaton.start route target ∧
        automaton.isAccepting target = true ∧ Consumes route word := by
  rw [accepts_iff_accepting_path]
  constructor
  · intro accepted
    obtain ⟨target, path, accepting⟩ := accepted
    obtain ⟨route, leads, consumes⟩ := path.exists_route
    exact ⟨route, target, leads, accepting, consumes⟩
  · intro accepted
    obtain ⟨route, target, leads, accepting, consumes⟩ := accepted
    exact ⟨target, leads.path consumes, accepting⟩

end Automaton

end TreePattern
