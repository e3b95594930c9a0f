import TreePattern.Pattern.Compile
import TreePattern.Proofs.Pattern.Profile

/-!
# Wiring grows a builder locally

Wiring a pattern behind a state hands out new states and adds transitions among these and that
state. All other rows stay as they are, that state's own row only gets longer at its end, and
neither the start nor the accepting states of the builder change.
-/

set_option autoImplicit false

namespace TreePattern

universe u

namespace AutomatonBuilder

variable {κ : Type u}

def Touches (before after : AutomatonBuilder κ) (start state : Nat) : Prop :=
  state = start ∨ (before.nextState ≤ state ∧ state < after.nextState)

structure Grows (before after : AutomatonBuilder κ) (start : Nat) : Prop where
  sameStart : after.start? = before.start?
  sameAccepting : after.accepting = before.accepting
  next : before.nextState ≤ after.nextState
  others : ∀ state, state ≠ start → state < before.nextState →
    after.table.transitions state = before.table.transitions state
  own : before.table.transitions start <+: after.table.transitions start
  added : ∀ state, ∀ transition ∈ after.table.transitions state,
    transition ∈ before.table.transitions state ∨
      (Touches before after start state ∧ Touches before after start transition.destination)

theorem Grows.refl (builder : AutomatonBuilder κ) (start : Nat) : builder.Grows builder start where
  sameStart := rfl
  sameAccepting := rfl
  next := Nat.le_refl _
  others _ _ _ := rfl
  own := List.prefix_refl _
  added _ _ member := Or.inl member

theorem Touches.mono {before middle after : AutomatonBuilder κ} {start state : Nat}
    (touches : before.Touches middle start state) (later : middle.nextState ≤ after.nextState) :
    before.Touches after start state := by
  rcases touches with same | ⟨lower, upper⟩
  · exact Or.inl same
  · exact Or.inr ⟨lower, Nat.lt_of_lt_of_le upper later⟩

theorem Touches.add_transition {before after : AutomatonBuilder κ} {start state : Nat}
    (touches : before.Touches after start state) (source : Nat) (condition : Condition κ)
    (destination : Nat) :
    before.Touches (after.addTransition source condition destination) start state :=
  touches.mono (Nat.le_of_eq (next_state_add_transition ..).symm)

theorem touches_new {before after : AutomatonBuilder κ} (next : before.nextState ≤ after.nextState)
    (start : Nat) : before.Touches after.withState start after.nextState := by
  apply Or.inr
  apply And.intro next
  rw [next_state_with_state]
  exact Nat.lt_succ_self _

theorem Touches.trans {before middle after : AutomatonBuilder κ} {start between state : Nat}
    (touches : before.Touches middle start between) (first : before.nextState ≤ middle.nextState)
    (last : middle.nextState ≤ after.nextState) (further : middle.Touches after between state) :
    before.Touches after start state := by
  rcases further with rfl | ⟨lower, upper⟩
  · exact touches.mono last
  · exact Or.inr ⟨Nat.le_trans first lower, upper⟩

theorem Grows.trans {before middle after : AutomatonBuilder κ} {start between : Nat}
    (first : before.Grows middle start) (touches : before.Touches middle start between)
    (handed : start < before.nextState) (second : middle.Grows after between) :
    before.Grows after start where
  sameStart := second.sameStart.trans first.sameStart
  sameAccepting := second.sameAccepting.trans first.sameAccepting
  next := Nat.le_trans first.next second.next
  others state other old := by
    have apart : state ≠ between := by
      rcases touches with same | ⟨lower, -⟩
      · exact same ▸ other
      · exact Nat.ne_of_lt (Nat.lt_of_lt_of_le old lower)
    rw [second.others state apart (Nat.lt_of_lt_of_le old first.next), first.others state other old]
  own := by
    by_cases same : start = between
    · subst same
      exact first.own.trans second.own
    · rw [second.others start same (Nat.lt_of_lt_of_le handed first.next)]
      exact first.own
  added state transition member := by
    rcases second.added state transition member with kept | ⟨source, destination⟩
    · rcases first.added state transition kept with old | ⟨source, destination⟩
      · exact Or.inl old
      · exact Or.inr ⟨source.mono second.next, destination.mono second.next⟩
    · exact Or.inr ⟨touches.trans first.next second.next source,
        touches.trans first.next second.next destination⟩

theorem Grows.with_state {before after : AutomatonBuilder κ} {start : Nat}
    (grows : before.Grows after start) : before.Grows after.withState start where
  sameStart := grows.sameStart
  sameAccepting := grows.sameAccepting
  next := Nat.le_trans grows.next (Nat.le_succ _)
  others state other old := by
    rw [withState, TransitionTable.transitions_ensure_state]
    exact grows.others state other old
  own := by
    rw [withState, TransitionTable.transitions_ensure_state]
    exact grows.own
  added state transition member := by
    rw [withState, TransitionTable.transitions_ensure_state] at member
    rcases grows.added state transition member with old | ⟨source, destination⟩
    · exact Or.inl old
    · exact Or.inr ⟨source.mono (Nat.le_succ _), destination.mono (Nat.le_succ _)⟩

theorem Grows.add_transition {before after : AutomatonBuilder κ} {start source : Nat}
    (grows : before.Grows after start) (condition : Condition κ) {destination : Nat}
    (leaves : before.Touches after start source) (enters : before.Touches after start destination) :
    before.Grows (after.addTransition source condition destination) start where
  sameStart := grows.sameStart
  sameAccepting := grows.sameAccepting
  next := grows.next
  others state other old := by
    have apart : state ≠ source := by
      rcases leaves with same | ⟨lower, -⟩
      · exact same ▸ other
      · exact Nat.ne_of_lt (Nat.lt_of_lt_of_le old lower)
    rw [addTransition, TransitionTable.transitions_add, if_neg apart]
    exact grows.others state other old
  own := by
    rw [addTransition, TransitionTable.transitions_add]
    split
    · exact grows.own.trans (List.prefix_append ..)
    · exact grows.own
  added state transition member := by
    rw [addTransition, TransitionTable.transitions_add] at member
    split at member
    · rename_i same
      rcases List.mem_append.1 member with kept | new
      · exact grows.added state transition kept
      · rw [List.mem_singleton] at new
        subst new
        exact Or.inr ⟨same ▸ leaves, enters⟩
    · exact grows.added state transition member

def Handed (builder : AutomatonBuilder κ) : Prop :=
  ∀ state, ∀ transition ∈ builder.table.transitions state,
    state < builder.nextState ∧ transition.destination < builder.nextState

theorem Touches.lt {before after : AutomatonBuilder κ} {start state : Nat}
    (touches : before.Touches after start state) (handed : start < before.nextState)
    (next : before.nextState ≤ after.nextState) : state < after.nextState := by
  rcases touches with rfl | ⟨-, upper⟩
  · exact Nat.lt_of_lt_of_le handed next
  · exact upper

theorem Grows.handed {before after : AutomatonBuilder κ} {start : Nat}
    (grows : before.Grows after start) (bound : start < before.nextState)
    (handed : before.Handed) : after.Handed := by
  intro state transition member
  rcases grows.added state transition member with old | ⟨source, destination⟩
  · obtain ⟨known, target⟩ := handed state transition old
    exact ⟨Nat.lt_of_lt_of_le known grows.next, Nat.lt_of_lt_of_le target grows.next⟩
  · exact ⟨source.lt bound grows.next, destination.lt bound grows.next⟩

theorem Handed.add_transition {builder : AutomatonBuilder κ} (handed : builder.Handed)
    (condition : Condition κ) {source destination : Nat} (leaves : source < builder.nextState)
    (enters : destination < builder.nextState) :
    (builder.addTransition source condition destination).Handed := by
  intro state transition member
  rw [addTransition, TransitionTable.transitions_add] at member
  rw [next_state_add_transition]
  split at member
  · rename_i same
    rcases List.mem_append.1 member with old | new
    · exact handed state transition old
    · rw [List.mem_singleton] at new
      subst new same
      exact ⟨leaves, enters⟩
  · exact handed state transition member

end AutomatonBuilder

namespace Pattern

variable {κ : Type u}

open AutomatonBuilder

def WiresLocally (pattern : Pattern κ) : Prop :=
  ∀ (start : Nat) (builder : AutomatonBuilder κ), start < builder.nextState →
    builder.Grows (pattern.inject start builder).2 start ∧
      builder.Touches (pattern.inject start builder).2 start (pattern.inject start builder).1

theorem inject_sequence_grows {items : List (Pattern κ)}
    (holds : ∀ item ∈ items, item.WiresLocally) (start : Nat) (builder : AutomatonBuilder κ)
    (bound : start < builder.nextState) :
    builder.Grows (injectSequence items start builder).2 start ∧
      builder.Touches (injectSequence items start builder).2 start
        (injectSequence items start builder).1 := by
  induction items generalizing start builder with
  | nil =>
      rw [inject_sequence_nil]
      exact ⟨.refl builder start, Or.inl rfl⟩
  | cons item items induction =>
      rw [inject_sequence_cons]
      obtain ⟨first, ends⟩ := holds item (List.mem_cons_self ..) start builder bound
      have middle := ends.lt bound first.next
      obtain ⟨second, stops⟩ := induction
        (fun other member => holds other (List.mem_cons_of_mem item member)) _ _ middle
      exact ⟨first.trans ends bound second, ends.trans first.next second.next stops⟩

theorem open_branch_grows {before builder : AutomatonBuilder κ} {start : Nat}
    (grows : before.Grows builder start) :
    before.Grows (openBranch builder start) start ∧
      before.Touches (openBranch builder start) start builder.nextState := by
  have isNew := touches_new grows.next start
  exact ⟨grows.with_state.add_transition .epsilon (Or.inl rfl) isNew, isNew.add_transition ..⟩

theorem next_state_open_branch (builder : AutomatonBuilder κ) (start : Nat) :
    (openBranch builder start).nextState = builder.nextState + 1 := by
  rw [openBranch, next_state_add_transition, next_state_with_state]

theorem lt_next_state_open_branch (builder : AutomatonBuilder κ) (start : Nat) :
    builder.nextState < (openBranch builder start).nextState := by
  rw [next_state_open_branch]
  exact Nat.lt_succ_self _

theorem lt_next_state_inject_branch {item : Pattern κ} (holds : item.WiresLocally)
    (start stop : Nat) (builder : AutomatonBuilder κ) :
    builder.nextState < (item.injectBranch start stop builder).nextState := by
  have isNew := lt_next_state_open_branch builder start
  rw [injectBranch, next_state_add_transition]
  exact Nat.lt_of_lt_of_le isNew (holds builder.nextState (openBranch builder start) isNew).1.next

theorem inject_branch_grows {item : Pattern κ} (holds : item.WiresLocally) {start stop : Nat}
    {before builder : AutomatonBuilder κ} (bound : start < before.nextState)
    (grows : before.Grows builder start) (ends : before.Touches builder start stop) :
    before.Grows (item.injectBranch start stop builder) start := by
  obtain ⟨opened, isNew⟩ := open_branch_grows grows
  have further := lt_next_state_open_branch builder start
  obtain ⟨inner, innerStop⟩ := holds builder.nextState (openBranch builder start) further
  have wired := opened.trans isNew bound inner
  have exit := isNew.trans opened.next inner.next innerStop
  exact wired.add_transition .epsilon exit
    (ends.mono (Nat.le_trans (Nat.le_of_lt further) inner.next))

theorem inject_branches_grows {items : List (Pattern κ)}
    (holds : ∀ item ∈ items, item.WiresLocally) {start stop : Nat}
    {before builder : AutomatonBuilder κ} (bound : start < before.nextState)
    (grows : before.Grows builder start) (ends : before.Touches builder start stop) :
    before.Grows (injectBranches items start stop builder) start ∧
      builder.nextState ≤ (injectBranches items start stop builder).nextState := by
  induction items generalizing builder with
  | nil =>
      rw [inject_branches_nil]
      exact ⟨grows, Nat.le_refl _⟩
  | cons item items induction =>
      rw [inject_branches_cons]
      have first := holds item (List.mem_cons_self ..)
      have later := Nat.le_of_lt (lt_next_state_inject_branch first start stop builder)
      obtain ⟨rest, further⟩ := induction
        (fun other member => holds other (List.mem_cons_of_mem item member))
        (inject_branch_grows first bound grows ends) (ends.mono later)
      exact ⟨rest, Nat.le_trans later further⟩

theorem inject_grows (pattern : Pattern κ) : pattern.WiresLocally := by
  induction pattern using item_induction with
  | literal test =>
      intro start builder bound
      rw [inject_literal]
      have stop := touches_new (Nat.le_refl builder.nextState) start
      exact ⟨(Grows.refl builder start).with_state.add_transition _ (Or.inl rfl) stop,
        stop.add_transition ..⟩
  | concat items holds =>
      intro start builder bound
      rw [inject_concat]
      exact inject_sequence_grows holds start builder bound
  | choice items holds =>
      intro start builder bound
      rw [inject_choice]
      have stop := touches_new (Nat.le_refl builder.nextState) start
      obtain ⟨grows, further⟩ :=
        inject_branches_grows holds bound (Grows.refl builder start).with_state stop
      exact ⟨grows, stop.mono further⟩
  | star body holds =>
      intro start builder bound
      rw [inject_star]
      obtain ⟨grows, ends⟩ := holds start builder bound
      have forth := grows.add_transition .epsilon (Or.inl rfl) ends
      have joins := ends.add_transition start .epsilon (body.inject start builder).1
      exact ⟨forth.add_transition .epsilon joins (Or.inl rfl), joins.add_transition ..⟩
  | empty =>
      intro start builder bound
      rw [inject_empty]
      exact ⟨.refl builder start, Or.inl rfl⟩

theorem handed_inject_branch (item : Pattern κ) {start stop : Nat} {builder : AutomatonBuilder κ}
    (bound : start < builder.nextState) (stopBound : stop < builder.nextState)
    (handed : builder.Handed) : (item.injectBranch start stop builder).Handed := by
  have isNew := lt_next_state_open_branch builder start
  have openedHanded := (open_branch_grows (Grows.refl builder start)).1.handed bound handed
  obtain ⟨grows, ends⟩ := inject_grows item builder.nextState (openBranch builder start) isNew
  exact (grows.handed isNew openedHanded).add_transition .epsilon (ends.lt isNew grows.next)
    (Nat.lt_trans stopBound (Nat.lt_of_lt_of_le isNew grows.next))

def KeepsTransitions (pattern : Pattern κ) : Prop :=
  ∀ (start : Nat) (builder : AutomatonBuilder κ),
    builder.table.Within (pattern.inject start builder).2.table

theorem within_inject_sequence {items : List (Pattern κ)}
    (holds : ∀ item ∈ items, item.KeepsTransitions) (start : Nat) (builder : AutomatonBuilder κ) :
    builder.table.Within (injectSequence items start builder).2.table := by
  induction items generalizing start builder with
  | nil =>
      rw [inject_sequence_nil]
      exact .refl _
  | cons item items induction =>
      rw [inject_sequence_cons]
      exact (holds item (List.mem_cons_self ..) start builder).trans
        (induction (fun other member => holds other (List.mem_cons_of_mem item member)) _ _)

theorem within_open_branch (builder : AutomatonBuilder κ) (start : Nat) :
    builder.table.Within (openBranch builder start).table :=
  builder.within_with_state.trans (builder.withState.within_add_transition ..)

theorem within_inject_branch {item : Pattern κ} (holds : item.KeepsTransitions)
    (start stop : Nat) (builder : AutomatonBuilder κ) :
    builder.table.Within (item.injectBranch start stop builder).table :=
  ((within_open_branch builder start).trans (holds builder.nextState (openBranch builder start)))
    |>.trans (within_add_transition ..)

theorem within_inject_branches {items : List (Pattern κ)}
    (holds : ∀ item ∈ items, item.KeepsTransitions) (start stop : Nat)
    (builder : AutomatonBuilder κ) :
    builder.table.Within (injectBranches items start stop builder).table := by
  induction items generalizing builder with
  | nil =>
      rw [inject_branches_nil]
      exact .refl _
  | cons item items induction =>
      rw [inject_branches_cons]
      have first := within_inject_branch (holds item (List.mem_cons_self ..)) start stop builder
      exact first.trans
        (induction (fun other member => holds other (List.mem_cons_of_mem item member)) _)

theorem within_inject (pattern : Pattern κ) : pattern.KeepsTransitions := by
  induction pattern using item_induction with
  | literal test =>
      intro start builder
      rw [inject_literal]
      exact builder.within_with_state.trans (builder.withState.within_add_transition ..)
  | concat items holds =>
      intro start builder
      rw [inject_concat]
      exact within_inject_sequence holds start builder
  | choice items holds =>
      intro start builder
      rw [inject_choice]
      exact builder.within_with_state.trans
        (within_inject_branches holds start builder.nextState builder.withState)
  | star body holds =>
      intro start builder
      rw [inject_star]
      have inner := holds start builder
      generalize body.inject start builder = wired at inner ⊢
      have forth := wired.2.within_add_transition start .epsilon wired.1
      have back := (wired.2.addTransition start .epsilon wired.1).within_add_transition
        wired.1 .epsilon start
      exact (inner.trans forth).trans back
  | empty =>
      intro start builder
      rw [inject_empty]
      exact .refl _

end Pattern

end TreePattern
