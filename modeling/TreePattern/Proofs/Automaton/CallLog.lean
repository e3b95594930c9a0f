import Mathlib.Data.List.Induction
import TreePattern.Automaton.Builder
import TreePattern.Condition.Literal
import TreePattern.Proofs.Automaton.SourceOrder

/-!
# What a builder keeps of the calls made on it

The calls on a builder, in order, are its log. States may be mentioned before they are handed out,
or never be. Whatever the order of the calls, the table holds the logged transitions and nothing
else: each call appends its own transition to the row of its source and leaves all other rows as
they were. The start, the accepting states and the number of states are read off the log too.
-/

set_option autoImplicit false

namespace TreePattern

universe u

variable {κ : Type u}

def stateBound (states : List Nat) : Nat := states.max?.elim 0 (· + 1)

theorem state_bound_cons (state : Nat) (states : List Nat) :
    stateBound (state :: states) = max (state + 1) (stateBound states) := by
  rw [stateBound, stateBound, List.max?_cons]
  cases states.max? with
  | none => simp
  | some largest => simp [Nat.add_max_add_right]

theorem state_bound_append (states more : List Nat) :
    stateBound (states ++ more) = max (stateBound states) (stateBound more) := by
  induction states with
  | nil => simp [stateBound]
  | cons state states induction =>
      rw [List.cons_append, state_bound_cons, state_bound_cons, induction, Nat.max_assoc]

namespace AutomatonBuilder

/-- A call on a builder. The states may be any, handed out or not. -/
inductive Call (κ : Type u) where
  | newState (start accepting : Bool)
  | setStart (state : Nat)
  | markAccepting (state : Nat)
  | addTransition (source : Nat) (condition : Condition κ) (destination : Nat)
  deriving Repr

namespace Call

def handsOut : Call κ → Bool
  | newState _ _ => true
  | _ => false

def designated? (next : Nat) : Call κ → Option Nat
  | newState start _ => if start then some next else none
  | setStart state => some state
  | _ => none

def marked? (next : Nat) : Call κ → Option Nat
  | newState _ accepting => if accepting then some next else none
  | markAccepting state => some state
  | _ => none

def logged? : Call κ → Option (Nat × Transition κ)
  | addTransition source condition destination => some (source, ⟨condition, destination⟩)
  | _ => none

end Call

def handedOut (calls : List (Call κ)) : Nat := calls.countP (·.handsOut)

/-- Each call with the state that is next to be handed out when it is made. -/
def numbered (next : Nat) : List (Call κ) → List (Nat × Call κ)
  | [] => []
  | call :: rest => (next, call) :: numbered (next + call.handsOut.toNat) rest

def designated (calls : List (Call κ)) : List Nat :=
  (numbered 0 calls).filterMap fun entry => entry.2.designated? entry.1

def marked (calls : List (Call κ)) : List Nat :=
  (numbered 0 calls).filterMap fun entry => entry.2.marked? entry.1

def logged (calls : List (Call κ)) : List (Nat × Transition κ) := calls.filterMap (·.logged?)

def endPoints (log : List (Nat × Transition κ)) : List Nat :=
  log.flatMap fun entry => [entry.1, entry.2.destination]

def perform (builder : AutomatonBuilder κ) : Call κ → AutomatonBuilder κ
  | .newState start accepting => (builder.newState start accepting).2
  | .setStart state => builder.setStart state
  | .markAccepting state => builder.markAccepting state
  | .addTransition source condition destination =>
      builder.addTransition source condition destination

def afterCalls (calls : List (Call κ)) : AutomatonBuilder κ := calls.foldl perform empty

theorem end_points_append (log more : List (Nat × Transition κ)) :
    endPoints (log ++ more) = endPoints log ++ endPoints more := by
  rw [endPoints, List.flatMap_append]
  rfl

section Log

variable (calls : List (Call κ)) (call : Call κ)

theorem handed_out_concat :
    handedOut (calls ++ [call]) = handedOut calls + call.handsOut.toNat := by
  rw [handedOut, List.countP_append]
  cases handsOut : call.handsOut <;> simp [handedOut, handsOut]

theorem numbered_concat (next : Nat) :
    numbered next (calls ++ [call]) =
      numbered next calls ++ [(next + handedOut calls, call)] := by
  induction calls generalizing next with
  | nil => rfl
  | cons first calls induction =>
      have counted : handedOut (first :: calls) = first.handsOut.toNat + handedOut calls := by
        rw [handedOut, List.countP_cons]
        cases first.handsOut <;> simp [handedOut, Nat.add_comm]
      rw [List.cons_append, numbered, induction, numbered, counted, Nat.add_assoc]
      rfl

theorem designated_concat :
    designated (calls ++ [call]) =
      designated calls ++ (call.designated? (handedOut calls)).toList := by
  rw [designated, numbered_concat, List.filterMap_append, Nat.zero_add]
  cases found : call.designated? (handedOut calls) <;> simp [designated, found]

theorem marked_concat :
    marked (calls ++ [call]) = marked calls ++ (call.marked? (handedOut calls)).toList := by
  rw [marked, numbered_concat, List.filterMap_append, Nat.zero_add]
  cases found : call.marked? (handedOut calls) <;> simp [marked, found]

theorem logged_concat : logged (calls ++ [call]) = logged calls ++ call.logged?.toList := by
  rw [logged, List.filterMap_append]
  cases found : call.logged? <;> simp [logged, found]

theorem after_calls_concat : afterCalls (calls ++ [call]) = (afterCalls calls).perform call := by
  rw [afterCalls, List.foldl_append]
  rfl

end Log

section Perform

variable (builder : AutomatonBuilder κ) (call : Call κ)

theorem next_state_perform :
    (builder.perform call).nextState = builder.nextState + call.handsOut.toNat := by
  cases call with
  | newState start accepting => exact next_state_new_state builder start accepting
  | setStart => rfl
  | markAccepting => rfl
  | addTransition => rfl

theorem transitions_perform (state : Nat) :
    (builder.perform call).table.transitions state =
      builder.table.transitions state ++ leaving call.logged?.toList state := by
  cases call with
  | newState start accepting => simp [perform, Call.logged?, leaving]
  | setStart => exact (List.append_nil _).symm
  | markAccepting => exact (List.append_nil _).symm
  | addTransition source condition destination =>
      rw [perform, addTransition, TransitionTable.transitions_add]
      by_cases same : source = state
      · simp [Call.logged?, leaving, same]
      · simp [Call.logged?, leaving, same, Ne.symm same]

theorem state_count_perform :
    (builder.perform call).table.stateCount =
      max builder.table.stateCount (max (if call.handsOut then builder.nextState + 1 else 0)
        (stateBound (endPoints call.logged?.toList))) := by
  cases call with
  | newState start accepting => simp [perform, Call.logged?, endPoints, Call.handsOut, stateBound]
  | setStart => exact (Nat.max_zero _).symm
  | markAccepting => exact (Nat.max_zero _).symm
  | addTransition source condition destination =>
      rw [perform, addTransition, TransitionTable.state_count_add]
      simp [Call.logged?, endPoints, Call.handsOut, stateBound]

theorem start_perform :
    (builder.perform call).start? = (call.designated? builder.nextState).or builder.start? := by
  cases call with
  | newState start accepting => cases start <;> simp [perform, Call.designated?]
  | setStart => rfl
  | markAccepting => rfl
  | addTransition => rfl

theorem mem_accepting_perform (state : Nat) :
    state ∈ (builder.perform call).accepting ↔
      state ∈ builder.accepting ∨ call.marked? builder.nextState = some state := by
  cases call with
  | newState start accepting => cases accepting <;> simp [perform, Call.marked?, or_comm, eq_comm]
  | setStart => simp [perform, Call.marked?, setStart]
  | markAccepting => simp [perform, Call.marked?, markAccepting, or_comm, eq_comm]
  | addTransition => simp [perform, Call.marked?, addTransition]

theorem build_eq_ok {builder : AutomatonBuilder κ} {automaton : Automaton κ}
    (built : builder.build = .ok automaton) :
    builder.start? = some automaton.start ∧ automaton.accepting = builder.accepting ∧
      automaton.table = builder.table := by
  cases found : builder.start? with
  | none => simp [build, found] at built
  | some start =>
      simp only [build, found, Except.ok.injEq] at built
      subst built
      exact ⟨rfl, rfl, rfl⟩

end Perform

structure Records (builder : AutomatonBuilder κ) (calls : List (Call κ)) : Prop where
  next : builder.nextState = handedOut calls
  rows : ∀ state, builder.table.transitions state = leaving (logged calls) state
  stateCount : builder.table.stateCount =
    max (handedOut calls) (stateBound (endPoints (logged calls)))
  start : builder.start? = (designated calls).getLast?
  accepting : ∀ state, state ∈ builder.accepting ↔ state ∈ marked calls

section Records

variable {builder : AutomatonBuilder κ} {calls : List (Call κ)}

theorem records_empty : Records (empty : AutomatonBuilder κ) [] where
  next := rfl
  rows _ := rfl
  stateCount := rfl
  start := rfl
  accepting state := iff_of_false (StateSet.not_mem_empty state) List.not_mem_nil

theorem Records.perform (records : Records builder calls) (call : Call κ) :
    Records (builder.perform call) (calls ++ [call]) where
  next := by rw [next_state_perform, handed_out_concat, records.next]
  rows state := by rw [transitions_perform, logged_concat, leaving_append, records.rows]
  stateCount := by
    rw [state_count_perform, records.stateCount, records.next, handed_out_concat, logged_concat,
      end_points_append, state_bound_append]
    cases call.handsOut with
    | false =>
        simp only [Bool.false_eq_true, if_false, Bool.toNat_false]
        omega
    | true =>
        simp only [if_true, Bool.toNat_true]
        omega
  start := by
    rw [start_perform, designated_concat, List.getLast?_append, records.start, records.next]
    cases call.designated? (handedOut calls) <;> rfl
  accepting state := by
    rw [mem_accepting_perform, marked_concat, List.mem_append, records.accepting, records.next,
      Option.mem_toList]

theorem records_after_calls (calls : List (Call κ)) : Records (afterCalls calls) calls := by
  -- The induction is on the end of the log, because a call is read with the calls before it.
  induction calls using List.reverseRecOn with
  | nil => exact records_empty
  | append_singleton calls call records =>
      rw [after_calls_concat]
      exact records.perform call

theorem exists_build_iff (calls : List (Call κ)) :
    (∃ automaton, (afterCalls calls).build = .ok automaton) ↔ designated calls ≠ [] := by
  have start := (records_after_calls calls).start
  constructor
  · intro builds
    rcases builds with ⟨automaton, built⟩
    intro undesignated
    rw [(build_eq_ok built).1, undesignated] at start
    exact Option.some_ne_none _ start
  · intro given
    rw [List.getLast?_eq_some_getLast given] at start
    simp only [build, start]
    exact ⟨_, rfl⟩

end Records

/-- The automaton is what the calls say: each row lists the logged transitions out of its state in
the order of the calls, and the whole table is the log sorted by source, equal sources in the order
of the calls. -/
structure FollowsLog (automaton : Automaton κ) (calls : List (Call κ)) : Prop where
  rows : ∀ state, automaton.transitions state = leaving (logged calls) state
  listed : automaton.table.toList = (logged calls).mergeSort keyLe
  stateCount : automaton.stateCount =
    max (handedOut calls) (stateBound (endPoints (logged calls)))
  start : (designated calls).getLast? = some automaton.start
  accepting : ∀ state, automaton.isAccepting state = true ↔ state ∈ marked calls

/-- Whatever calls were made on a builder, in any order and with any states, the automaton that it
builds is what the calls say. On the way no call loses, repeats or moves a transition. -/
theorem built_automaton_follows_log (calls : List (Call κ)) {automaton : Automaton κ}
    (built : (afterCalls calls).build = .ok automaton) :
    FollowsLog automaton calls ∧
      ∀ (earlier : List (Call κ)) (call : Call κ) (state : Nat),
        (afterCalls (earlier ++ [call])).table.transitions state =
          (afterCalls earlier).table.transitions state ++
            leaving call.logged?.toList state := by
  have records := records_after_calls calls
  rcases build_eq_ok built with ⟨start, accepting, table⟩
  constructor
  · exact {
      rows := fun state => by rw [Automaton.transitions, table, records.rows]
      listed := by rw [table, TransitionTable.to_list_eq_merge_sort records.rows]
      stateCount := by rw [Automaton.stateCount, table, records.stateCount]
      start := by rw [← records.start, start]
      accepting := fun state => by
        rw [Automaton.isAccepting, accepting]
        exact records.accepting state }
  · intro earlier call state
    rw [after_calls_concat, transitions_perform]

/-- Transitions that mention states before these are handed out or without that ever happening, one
of them twice. The start is designated twice, at last a state that nothing else mentions. -/
def strayCalls : List (Call (Literal Char)) :=
  [.addTransition 4 (.consume ⟨'a'⟩) 1, .newState true false, .addTransition 0 .epsilon 6,
    .setStart 9, .newState false true, .addTransition 4 (.consume ⟨'a'⟩) 1, .markAccepting 8]

theorem built_automaton_follows_log_strays :
    ∃ automaton, (afterCalls strayCalls).build = .ok automaton ∧
      FollowsLog automaton strayCalls ∧ automaton.start = 9 ∧ automaton.stateCount = 7 ∧
        (automaton.transitions 4).map (·.destination) = [1, 1] ∧
          automaton.accepting.toList = [1, 8] := by
  have built : (afterCalls strayCalls).build =
      .ok ⟨9, (afterCalls strayCalls).accepting, (afterCalls strayCalls).table⟩ := rfl
  have follows := (built_automaton_follows_log strayCalls built).1
  exact ⟨_, built, follows, rfl, by decide +kernel, by decide +kernel, by decide +kernel⟩

end AutomatonBuilder

end TreePattern
