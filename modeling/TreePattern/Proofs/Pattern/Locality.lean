import TreePattern.Condition.Literal
import TreePattern.Proofs.Pattern.Growth

/-!
# What wiring leaves alone

Wiring a pattern changes a builder in two ways only: it hands out a state, or it adds a transition
between states that it touches. A property of builders that outlives both holds behind every
pattern. Hence each row keeps its old transitions in front of the new ones, and only the rows of
the state where wiring began and of new states get any. How many states are new can be read off the
pattern.
-/

set_option autoImplicit false

namespace TreePattern

universe u

variable {κ : Type u}

namespace Pattern

mutual

/-- How many states the wiring of the pattern hands out: one for each literal, and for each choice
its end and one for each of its items. -/
def newStates : Pattern κ → Nat
  | .literal _ => 1
  | .concat items => newStatesOf items
  | .choice items => 1 + items.length + newStatesOf items
  | .star body => newStates body
  | .empty => 0

def newStatesOf : List (Pattern κ) → Nat
  | [] => 0
  | item :: rest => newStates item + newStatesOf rest

end

section NextState

def HandsOut (pattern : Pattern κ) : Prop :=
  ∀ (start : Nat) (builder : AutomatonBuilder κ),
    (pattern.inject start builder).2.nextState = builder.nextState + pattern.newStates

theorem next_state_inject_sequence {items : List (Pattern κ)}
    (holds : ∀ item ∈ items, item.HandsOut) (start : Nat) (builder : AutomatonBuilder κ) :
    (injectSequence items start builder).2.nextState = builder.nextState + newStatesOf items := by
  induction items generalizing start builder with
  | nil => rw [inject_sequence_nil, newStatesOf, Nat.add_zero]
  | cons item items induction =>
      have first := holds item List.mem_cons_self start builder
      rw [inject_sequence_cons,
        induction (fun other member => holds other (List.mem_cons_of_mem item member)), first,
        newStatesOf, Nat.add_assoc]

theorem next_state_inject_branch {item : Pattern κ} (holds : item.HandsOut) (start stop : Nat)
    (builder : AutomatonBuilder κ) :
    (item.injectBranch start stop builder).nextState = builder.nextState + 1 + item.newStates := by
  rw [injectBranch, AutomatonBuilder.next_state_add_transition, holds, next_state_open_branch]

theorem next_state_inject_branches {items : List (Pattern κ)}
    (holds : ∀ item ∈ items, item.HandsOut) (start stop : Nat) (builder : AutomatonBuilder κ) :
    (injectBranches items start stop builder).nextState =
      builder.nextState + (items.length + newStatesOf items) := by
  induction items generalizing builder with
  | nil => rw [inject_branches_nil, newStatesOf, List.length_nil, Nat.add_zero]
  | cons item items induction =>
      rw [inject_branches_cons,
        induction (fun other member => holds other (List.mem_cons_of_mem item member)),
        next_state_inject_branch (holds item List.mem_cons_self), newStatesOf, List.length_cons]
      omega

theorem next_state_inject (pattern : Pattern κ) : pattern.HandsOut := by
  induction pattern using item_induction with
  | literal test =>
      intro start builder
      rw [inject_literal, newStates]
      rfl
  | concat items holds =>
      intro start builder
      rw [inject_concat, newStates, next_state_inject_sequence holds]
  | choice items holds =>
      intro start builder
      rw [inject_choice, newStates, next_state_inject_branches holds,
        AutomatonBuilder.next_state_with_state]
      omega
  | star body holds =>
      intro start builder
      rw [inject_star, newStates, AutomatonBuilder.next_state_add_transition,
        AutomatonBuilder.next_state_add_transition, holds]
  | empty =>
      intro start builder
      rw [inject_empty, newStates, Nat.add_zero]

end NextState

open AutomatonBuilder

/-- The property outlives each change that wiring makes to a builder, when it began at `start`. -/
structure Outlives (before : AutomatonBuilder κ) (start : Nat)
    (holds : AutomatonBuilder κ → Prop) : Prop where
  state : ∀ builder, holds builder → holds builder.withState
  transition : ∀ builder source condition destination, before.Touches builder start source →
    before.Touches builder start destination → holds builder →
      holds (builder.addTransition source condition destination)

def Preserves (pattern : Pattern κ) (before : AutomatonBuilder κ) (start : Nat)
    (holds : AutomatonBuilder κ → Prop) : Prop :=
  ∀ (entry : Nat) (builder : AutomatonBuilder κ), before.nextState ≤ builder.nextState →
    before.Touches builder start entry → holds builder → holds (pattern.inject entry builder).2

section Invariants

variable {before : AutomatonBuilder κ} {start : Nat} {holds : AutomatonBuilder κ → Prop}

theorem inject_sequence_preserves {items : List (Pattern κ)} (bound : start < before.nextState)
    (each : ∀ item ∈ items, item.Preserves before start holds) {entry : Nat}
    {builder : AutomatonBuilder κ} (later : before.nextState ≤ builder.nextState)
    (touches : before.Touches builder start entry) (held : holds builder) :
    holds (injectSequence items entry builder).2 := by
  induction items generalizing entry builder with
  | nil =>
      rw [inject_sequence_nil]
      exact held
  | cons item items induction =>
      rw [inject_sequence_cons]
      obtain ⟨grows, ends⟩ := inject_grows item entry builder (touches.lt bound later)
      have kept := each item List.mem_cons_self entry builder later touches held
      exact induction (fun other member => each other (List.mem_cons_of_mem item member))
        (Nat.le_trans later grows.next) (touches.trans later grows.next ends) kept

theorem Outlives.inject_branch {item : Pattern κ} (outlives : Outlives before start holds)
    (bound : start < before.nextState) (keeps : item.Preserves before start holds)
    {entry stop : Nat} {builder : AutomatonBuilder κ}
    (later : before.nextState ≤ builder.nextState) (touches : before.Touches builder start entry)
    (ends : before.Touches builder start stop) (held : holds builder) :
    holds (item.injectBranch entry stop builder) := by
  have isNew := touches_new later start
  have opened : holds (openBranch builder entry) :=
    outlives.transition _ entry .epsilon builder.nextState (touches.mono (Nat.le_succ _)) isNew
      (outlives.state builder held)
  have further := Nat.le_of_lt (lt_next_state_open_branch builder entry)
  have behind := Nat.le_trans later further
  have inside : before.Touches (openBranch builder entry) start builder.nextState :=
    isNew.add_transition entry .epsilon builder.nextState
  obtain ⟨grows, exit⟩ := inject_grows item builder.nextState (openBranch builder entry)
    (inside.lt bound behind)
  exact outlives.transition _ _ .epsilon stop (inside.trans behind grows.next exit)
    (ends.mono (Nat.le_trans further grows.next)) (keeps _ _ behind inside opened)

theorem Outlives.inject_branches {items : List (Pattern κ)}
    (outlives : Outlives before start holds) (bound : start < before.nextState)
    (each : ∀ item ∈ items, item.Preserves before start holds) {entry stop : Nat}
    {builder : AutomatonBuilder κ} (later : before.nextState ≤ builder.nextState)
    (touches : before.Touches builder start entry) (ends : before.Touches builder start stop)
    (held : holds builder) : holds (injectBranches items entry stop builder) := by
  induction items generalizing builder with
  | nil =>
      rw [inject_branches_nil]
      exact held
  | cons item items induction =>
      rw [inject_branches_cons]
      have first := outlives.inject_branch bound (each item List.mem_cons_self) later touches ends
        held
      have further := Nat.le_of_lt
        (lt_next_state_inject_branch (inject_grows item) entry stop builder)
      exact induction (fun other member => each other (List.mem_cons_of_mem item member))
        (Nat.le_trans later further) (touches.mono further) (ends.mono further) first

/-- A property that outlives single changes holds behind the wiring of every pattern. -/
theorem Outlives.inject (outlives : Outlives before start holds) (bound : start < before.nextState)
    (pattern : Pattern κ) : pattern.Preserves before start holds := by
  induction pattern using item_induction with
  | literal test =>
      intro entry builder later touches held
      rw [inject_literal]
      exact outlives.transition _ entry (.consume test) _ (touches.mono (Nat.le_succ _))
        (touches_new later start) (outlives.state builder held)
  | concat items each =>
      intro entry builder later touches held
      rw [inject_concat]
      exact inject_sequence_preserves bound each later touches held
  | choice items each =>
      intro entry builder later touches held
      rw [inject_choice]
      exact outlives.inject_branches bound each (Nat.le_succ_of_le later)
        (touches.mono (Nat.le_succ _)) (touches_new later start) (outlives.state builder held)
  | star body each =>
      intro entry builder later touches held
      rw [inject_star]
      obtain ⟨grows, ends⟩ := inject_grows body entry builder (touches.lt bound later)
      have begins := touches.mono grows.next
      have stops := touches.trans later grows.next ends
      have forth := outlives.transition _ entry .epsilon _ begins stops
        (each entry builder later touches held)
      exact outlives.transition _ _ .epsilon entry (stops.add_transition ..)
        (begins.add_transition ..) forth
  | empty =>
      intro entry builder later touches held
      rw [inject_empty]
      exact held

end Invariants

/-- Each row begins with what it held before; what stands behind that leads from a touched state
to a touched state. -/
def Lengthens (before : AutomatonBuilder κ) (start : Nat) (after : AutomatonBuilder κ) : Prop :=
  ∀ state, ∃ more,
    after.table.transitions state = before.table.transitions state ++ more ∧
      ∀ transition ∈ more, before.Touches after start state ∧
        before.Touches after start transition.destination

theorem Lengthens.refl (builder : AutomatonBuilder κ) (start : Nat) :
    Lengthens builder start builder := by
  intro state
  exact ⟨[], (List.append_nil _).symm, fun _ member => absurd member List.not_mem_nil⟩

theorem outlives_lengthens (before : AutomatonBuilder κ) (start : Nat) :
    Outlives before start (Lengthens before start) where
  state builder lengthens state := by
    obtain ⟨more, row, touched⟩ := lengthens state
    refine ⟨more, ?_, ?_⟩
    · rw [withState, TransitionTable.transitions_ensure_state]
      exact row
    · intro transition member
      obtain ⟨leaves, enters⟩ := touched transition member
      exact ⟨leaves.mono (Nat.le_succ _), enters.mono (Nat.le_succ _)⟩
  transition builder source condition destination leaves enters lengthens state := by
    obtain ⟨more, row, touched⟩ := lengthens state
    rw [addTransition, TransitionTable.transitions_add, row]
    split
    · rename_i same
      subst same
      refine ⟨more ++ [⟨condition, destination⟩], List.append_assoc .., ?_⟩
      intro transition member
      rcases List.mem_append.1 member with old | new
      · exact touched transition old
      · rw [List.mem_singleton.1 new]
        exact ⟨leaves, enters⟩
    · exact ⟨more, rfl, touched⟩

/-- `after` is `before` with `count` more states, and with more transitions between these and
`start` only. -/
structure GrowsLocally (before after : AutomatonBuilder κ) (start count : Nat) : Prop where
  sameStart : after.start? = before.start?
  sameAccepting : after.accepting = before.accepting
  next : after.nextState = before.nextState + count
  others : ∀ state, state < before.nextState → state ≠ start →
    after.table.transitions state = before.table.transitions state
  rows : Lengthens before start after
  handed : after.Handed

/-- Wiring a pattern behind a state of a builder leaves the start, the accepting states and all
rows as they were, but for transitions at the end of the row of that state and in the rows of the
new states. It ends at that state or at a new one. -/
theorem inject_grows_locally (pattern : Pattern κ) {builder : AutomatonBuilder κ} {start : Nat}
    (handed : builder.Handed) (bound : start < builder.nextState) :
    GrowsLocally builder (pattern.inject start builder).2 start pattern.newStates ∧
      builder.Touches (pattern.inject start builder).2 start (pattern.inject start builder).1 := by
  obtain ⟨grows, ends⟩ := inject_grows pattern start builder bound
  refine ⟨?_, ends⟩
  exact {
    sameStart := grows.sameStart
    sameAccepting := grows.sameAccepting
    next := next_state_inject pattern start builder
    others := fun state old other => grows.others state other old
    rows := (outlives_lengthens builder start).inject bound pattern start builder
      (Nat.le_refl _) (Or.inl rfl) (.refl builder start)
    handed := grows.handed bound handed }

def pairBuilder : AutomatonBuilder (Literal Char) where
  nextState := 2
  start? := some 1
  accepting := .ofList [1]
  table := TransitionTable.empty.add 0 (.consume ⟨'z'⟩) 1

def loopThenChoice : Pattern (Literal Char) :=
  .concat [.star (.literal ⟨'a'⟩), .choice [.literal ⟨'b'⟩, .empty]]

theorem handed_pair_builder : pairBuilder.Handed := by
  intro state transition member
  rw [pairBuilder, TransitionTable.transitions_add, TransitionTable.transitions_empty] at member
  split at member
  · rename_i isFirst
    rw [List.nil_append, List.mem_singleton] at member
    rw [isFirst, member]
    decide
  · exact absurd member List.not_mem_nil

theorem inject_grows_locally_loop_then_choice :
    pairBuilder.Handed ∧ 0 < pairBuilder.nextState ∧
      GrowsLocally pairBuilder (loopThenChoice.inject 0 pairBuilder).2 0 5 ∧
      (loopThenChoice.inject 0 pairBuilder).1 = 3 ∧
      ((loopThenChoice.inject 0 pairBuilder).2.table.transitions 0).map (·.destination) =
        [1, 2, 2] := by
  have bound : 0 < pairBuilder.nextState := by decide
  obtain ⟨grows, -⟩ := inject_grows_locally loopThenChoice handed_pair_builder bound
  exact ⟨handed_pair_builder, bound, grows, rfl, by decide +kernel⟩

end Pattern

end TreePattern
