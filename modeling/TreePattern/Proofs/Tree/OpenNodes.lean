import TreePattern.Tree.Walk

/-!
# Open nodes

Reports of a walk are read as brackets: entering a node opens it, and only the innermost open node
can be left. Reading them from the left gives the open nodes after each report, so a sequence of
reports is well nested as far as it goes exactly if it can be read.
-/

set_option autoImplicit false

namespace TreePattern

namespace Event

/-- The open nodes after the reports, innermost first, when `opened` are those before. There are
none if some report leaves a node that is not the innermost open one. -/
def openAfter? : List Nat → List Event → Option (List Nat)
  | opened, [] => some opened
  | opened, .enter id :: rest => openAfter? (id :: opened) rest
  | [], .leave _ :: _ => none
  | inner :: opened, .leave id :: rest => if id = inner then openAfter? opened rest else none

theorem open_after_append (opened : List Nat) (events more : List Event) :
    openAfter? opened (events ++ more) = (openAfter? opened events).bind (openAfter? · more) := by
  induction events generalizing opened with
  | nil => rfl
  | cons event rest induction =>
      cases event with
      | enter id => exact induction (id :: opened)
      | leave id =>
          cases opened with
          | nil => rfl
          | cons inner opened =>
              simp only [List.cons_append, openAfter?]
              split
              · exact induction opened
              · rfl

theorem open_after_enter {events : List Event} {opened : List Nat}
    (nested : openAfter? [] events = some opened) (id : Nat) :
    openAfter? [] (events ++ [.enter id]) = some (id :: opened) := by
  rw [open_after_append, nested]
  rfl

theorem open_after_leave {events : List Event} {opened : List Nat} {id : Nat}
    (nested : openAfter? [] events = some (id :: opened)) :
    openAfter? [] (events ++ [.leave id]) = some opened := by
  rw [open_after_append, nested, Option.bind_some, openAfter?, if_pos rfl]
  rfl

/-- The nodes that were left or are open are the nodes that were entered or were open before. -/
theorem left_open_perm {events : List Event} {opened final : List Nat}
    (nested : openAfter? opened events = some final) :
    (events.filterMap left? ++ final).Perm (events.filterMap entered? ++ opened) := by
  induction events generalizing opened with
  | nil =>
      cases nested
      exact .refl _
  | cons event rest induction =>
      cases event with
      | enter id =>
          have later := induction nested
          simp only [List.filterMap_cons, entered?, left?, List.cons_append]
          exact later.trans List.perm_middle
      | leave id =>
          cases opened with
          | nil => cases nested
          | cons inner opened =>
              rw [openAfter?] at nested
              split at nested
              · rename_i same
                subst same
                simp only [List.filterMap_cons, entered?, left?, List.cons_append]
                exact ((induction nested).cons id).trans List.perm_middle.symm
              · cases nested

section Nested

variable {events : List Event} {opened : List Nat}

theorem eq_nil_of_none_entered (nested : openAfter? [] events = some opened)
    (none : events.filterMap entered? = []) : events = [] := by
  cases events with
  | nil => rfl
  | cons event rest =>
      cases event with
      | enter id => cases none
      | leave id => cases nested

theorem mem_entered {id : Nat} : id ∈ events.filterMap entered? ↔ .enter id ∈ events := by
  rw [List.mem_filterMap]
  constructor
  · intro reported
    obtain ⟨event, member, same⟩ := reported
    cases event with
    | enter other =>
        cases same
        exact member
    | leave other => cases same
  · intro member
    exact ⟨_, member, rfl⟩

theorem length_eq (events : List Event) :
    events.length = (events.filterMap entered?).length + (events.filterMap left?).length := by
  induction events with
  | nil => rfl
  | cons event rest induction =>
      cases event with
      | enter id =>
          simp only [List.filterMap_cons, entered?, left?, List.length_cons]
          omega
      | leave id =>
          simp only [List.filterMap_cons, entered?, left?, List.length_cons]
          omega

theorem count_left (id : Nat) :
    (events.filterMap left?).count id = events.count (.leave id) := by
  induction events with
  | nil => rfl
  | cons event rest induction =>
      cases event with
      | enter other =>
          rw [List.count_cons_of_ne (by simp)]
          exact induction
      | leave other =>
          simp only [List.filterMap_cons, left?, List.count_cons, induction, beq_iff_eq,
            leave.injEq]

theorem entered_before_left {before after : List Event} {id : Nat}
    (nested : openAfter? [] (before ++ .leave id :: after) = some opened) :
    .enter id ∈ before := by
  rw [open_after_append] at nested
  obtain ⟨inner, nestedBefore, nestedAfter⟩ := Option.bind_eq_some_iff.1 nested
  cases inner with
  | nil => cases nestedAfter
  | cons innermost outer =>
      rw [openAfter?] at nestedAfter
      split at nestedAfter
      · rename_i same
        subst same
        have counted := (left_open_perm nestedBefore).mem_iff (a := id)
        rw [List.append_nil] at counted
        exact mem_entered.1 (counted.1 (List.mem_append_right _ List.mem_cons_self))
      · cases nestedAfter

end Nested

end Event

end TreePattern
