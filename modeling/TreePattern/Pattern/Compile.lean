import TreePattern.Automaton.Builder
import TreePattern.Automaton.Subset
import TreePattern.Pattern.Basic

/-!
# Compiling patterns

A pattern is wired into a builder behind a given state, and the wiring answers with the one state
where the pattern ends. A literal adds one state; a choice adds its end and one state for each of
its branches; sequences and repetitions add no state of their own: the end of one item is the
beginning of the next, and a repetition joins the beginning and the end of its body both ways.
-/

set_option autoImplicit false

namespace TreePattern

universe u

namespace Pattern

variable {κ : Type u}

mutual

/-- Wires the pattern into the builder so that it begins at `start`; answers its end. -/
def inject : Pattern κ → Nat → AutomatonBuilder κ → Nat × AutomatonBuilder κ
  | .literal test, start, builder =>
      let stop := builder.nextState
      (stop, builder.withState.addTransition start (.consume test) stop)
  | .concat items, start, builder => injectSequence items start builder
  | .choice items, start, builder =>
      let stop := builder.nextState
      (stop, injectBranches items start stop builder.withState)
  | .star body, start, builder =>
      let (stop, wired) := inject body start builder
      (stop, (wired.addTransition start .epsilon stop).addTransition stop .epsilon start)
  | .empty, start, builder => (start, builder)

def injectSequence : List (Pattern κ) → Nat → AutomatonBuilder κ → Nat × AutomatonBuilder κ
  | [], start, builder => (start, builder)
  | item :: rest, start, builder =>
      let (middle, wired) := inject item start builder
      injectSequence rest middle wired

def injectBranches : List (Pattern κ) → Nat → Nat → AutomatonBuilder κ → AutomatonBuilder κ
  | [], _, _, builder => builder
  | item :: rest, start, stop, builder =>
      let entry := builder.nextState
      let opened := builder.withState.addTransition start .epsilon entry
      let (exit, wired) := inject item entry opened
      injectBranches rest start stop (wired.addTransition exit .epsilon stop)

end

theorem inject_literal (test : κ) (start : Nat) (builder : AutomatonBuilder κ) :
    (literal test).inject start builder =
      (builder.nextState,
        builder.withState.addTransition start (.consume test) builder.nextState) := by
  rw [inject]

theorem inject_concat (items : List (Pattern κ)) (start : Nat) (builder : AutomatonBuilder κ) :
    (concat items).inject start builder = injectSequence items start builder := by
  rw [inject]

theorem inject_choice (items : List (Pattern κ)) (start : Nat) (builder : AutomatonBuilder κ) :
    (choice items).inject start builder =
      (builder.nextState, injectBranches items start builder.nextState builder.withState) := by
  rw [inject]

theorem inject_star (body : Pattern κ) (start : Nat) (builder : AutomatonBuilder κ) :
    (star body).inject start builder =
      ((body.inject start builder).1,
        ((body.inject start builder).2.addTransition start .epsilon
            (body.inject start builder).1).addTransition
          (body.inject start builder).1 .epsilon start) := by
  rw [inject]

theorem inject_empty (start : Nat) (builder : AutomatonBuilder κ) :
    (empty : Pattern κ).inject start builder = (start, builder) := by
  rw [inject]

theorem inject_sequence_nil (start : Nat) (builder : AutomatonBuilder κ) :
    injectSequence [] start builder = (start, builder) := by
  rw [injectSequence]

theorem inject_sequence_cons (item : Pattern κ) (items : List (Pattern κ)) (start : Nat)
    (builder : AutomatonBuilder κ) :
    injectSequence (item :: items) start builder =
      injectSequence items (item.inject start builder).1 (item.inject start builder).2 := by
  rw [injectSequence]

theorem inject_branches_nil (start stop : Nat) (builder : AutomatonBuilder κ) :
    injectBranches [] start stop builder = builder := by
  rw [injectBranches]

def openBranch (builder : AutomatonBuilder κ) (start : Nat) : AutomatonBuilder κ :=
  builder.withState.addTransition start .epsilon builder.nextState

def injectBranch (item : Pattern κ) (start stop : Nat) (builder : AutomatonBuilder κ) :
    AutomatonBuilder κ :=
  (item.inject builder.nextState (openBranch builder start)).2.addTransition
    (item.inject builder.nextState (openBranch builder start)).1 .epsilon stop

theorem inject_branches_cons (item : Pattern κ) (items : List (Pattern κ)) (start stop : Nat)
    (builder : AutomatonBuilder κ) :
    injectBranches (item :: items) start stop builder =
      injectBranches items start stop (item.injectBranch start stop builder) := by
  rw [injectBranches]
  rfl

/-- The pattern wired behind a fresh start state; its end is the one accepting state. -/
def wired (pattern : Pattern κ) : AutomatonBuilder κ :=
  let (start, fresh) := AutomatonBuilder.empty.newState true false
  let (stop, wired) := pattern.inject start fresh
  wired.markAccepting stop

def compile [BEq κ] (pattern : Pattern κ) (eliminateEpsilon : Bool) :
    Except Failure (Automaton κ) :=
  match pattern.wired.build with
  | .error failure => .error failure
  | .ok automaton => if eliminateEpsilon then automaton.toDfa else .ok automaton

end Pattern

end TreePattern
