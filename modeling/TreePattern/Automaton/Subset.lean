import TreePattern.Automaton.Closure
import TreePattern.Failure

/-!
# Subset construction

Every closed set of states that can be reached becomes one state of a new automaton without epsilon
transitions. The sets are numbered in the order of their discovery: sets are expanded in that order,
and a set is expanded by its tests, in the order of its members and of their transitions. Tests are
told apart by `==`, whatever they match.
-/

set_option autoImplicit false

namespace TreePattern

universe u

def keepDistinct {α : Type u} [BEq α] (kept : List α) (element : α) : List α :=
  if kept.any (· == element) then kept else kept ++ [element]

/-- The elements without those that equal an earlier one. -/
def distinct {α : Type u} [BEq α] (elements : List α) : List α :=
  elements.foldl keepDistinct []

namespace Automaton

variable {κ : Type u}

def testsOf [BEq κ] (automaton : Automaton κ) (state : Nat) : List κ :=
  distinct ((automaton.transitions state).filterMap (·.condition.test?))

def testsOfSet [BEq κ] (automaton : Automaton κ) (members : List Nat) : List κ :=
  distinct (members.flatMap automaton.testsOf)

def testTargets [BEq κ] (automaton : Automaton κ) (members : List Nat) (test : κ) : List Nat :=
  members.flatMap fun state =>
    ((automaton.transitions state).filter fun transition =>
      match transition.condition.test? with
      | some other => other == test
      | none => false).map (·.destination)

/-- The set reached from `members` on `test`, as its increasing list. There is none if the test
does not even equal itself. -/
def testStep [BEq κ] (automaton : Automaton κ) (members : List Nat) (test : κ) :
    Except Failure (List Nat) :=
  match automaton.testTargets members test with
  | [] => .error .noDestination
  | targets => .ok (automaton.closure (.ofList targets)).toList

def number (found : List (List Nat)) (members : List Nat) : Nat × List (List Nat) :=
  match found.idxOf? members with
  | some index => (index, found)
  | none => (found.length, found ++ [members])

def expandSet [BEq κ] (automaton : Automaton κ) (members : List Nat) :
    List κ → List (List Nat) → Except Failure (List (Transition κ) × List (List Nat))
  | [], found => .ok ([], found)
  | test :: rest, found =>
      match automaton.testStep members test with
      | .error failure => .error failure
      | .ok next =>
          let (destination, after) := number found next
          match expandSet automaton members rest after with
          | .error failure => .error failure
          | .ok (row, final) => .ok (⟨.consume test, destination⟩ :: row, final)

/-- Expands the found sets from the one numbered `rows.size` on, at most `count` of them. -/
def expandSets [BEq κ] (automaton : Automaton κ) :
    Nat → List (List Nat) → Array (List (Transition κ)) →
      Except Failure (List (List Nat) × Array (List (Transition κ)))
  | 0, found, rows => .ok (found, rows)
  | count + 1, found, rows =>
      match found[rows.size]? with
      | none => .ok (found, rows)
      | some members =>
          match automaton.expandSet members (automaton.testsOfSet members) found with
          | .error failure => .error failure
          | .ok (row, after) => expandSets automaton count after (rows.push row)

/-- An automaton without epsilon transitions whose states are the reachable closed sets; a set is
accepting if a member is. A set holds states that are the start or a destination, which bounds the
number of sets. -/
def toDfa [BEq κ] (automaton : Automaton κ) : Except Failure (Automaton κ) :=
  let first := (automaton.closure (.ofList [automaton.start])).toList
  match automaton.expandSets (Nat.pow 2 (automaton.table.toList.length + 1)) [first] #[] with
  | .error failure => .error failure
  | .ok (found, rows) =>
      let accepting := (List.range found.length).filter fun index =>
        (found[index]?.getD []).any automaton.isAccepting
      .ok ⟨0, .ofList accepting, ⟨rows⟩⟩

end Automaton

end TreePattern
