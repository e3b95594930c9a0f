import Mathlib.Data.Finset.Sort
import TreePattern.Automaton.StateSet

/-!
# Sets of states answer like finite sets

A caller inserts single states, extends a set by a list or collects a list into a new set. The same
operations on finite sets of numbers are the reference: each operation keeps the members of both
the same, and then every answer is the same. Equality and hashing see the members only, never the
length of a bitmap.
-/

set_option autoImplicit false

namespace TreePattern

universe u

namespace StateSet

theorem to_list_nodup (set : StateSet) : set.toList.Nodup :=
  set.to_list_increasing.imp Nat.ne_of_lt

/-- Sets with the same members are equal, however their bitmaps grew. -/
theorem beq_iff (left right : StateSet) :
    (left == right) = true ↔ ∀ state, state ∈ left ↔ state ∈ right := by
  change (left.toList == right.toList) = true ↔ _
  rw [beq_iff_eq]
  constructor
  · intro same state
    rw [← mem_to_list, same, mem_to_list]
  · intro same
    apply left.to_list_increasing.eq_of_mem_iff right.to_list_increasing
    intro state
    rw [mem_to_list, mem_to_list]
    exact same state

/-- Equal sets have equal hashes, so a map may have sets as keys. -/
instance : LawfulHashable StateSet where
  hash_eq left right same := by
    have listed : left.toList = right.toList := beq_iff_eq.1 same
    change hash left.toList = hash right.toList
    rw [listed]

theorem to_list_insert_perm {set : StateSet} {state : Nat} (new : ¬ state ∈ set) :
    (set.insert state).toList.Perm (state :: set.toList) := by
  have distinct : (state :: set.toList).Nodup := by
    rw [List.nodup_cons, mem_to_list]
    exact ⟨new, set.to_list_nodup⟩
  apply (List.perm_ext_iff_of_nodup (to_list_nodup _) distinct).2
  intro other
  rw [mem_to_list, mem_insert, List.mem_cons, mem_to_list]

theorem contains_of_size_le {set : StateSet} {state : Nat} (outside : set.bits.size ≤ state) :
    set.contains state = false := by
  rw [contains, Array.getElem?_eq_none outside]
  rfl

theorem bits_to_list (set : StateSet) :
    set.bits.toList = (List.range set.bits.size).map set.contains := by
  apply List.ext_getElem
  · simp
  · intro state inBits inRange
    have bound : state < set.bits.size := by simpa using inBits
    simp [contains, bound]

theorem size_eq_length (set : StateSet) : set.size = set.toList.length := by
  calc
    set.size = set.bits.toList.countP (· == true) := by
      rw [size, ← Array.count_toList, List.count]
    _ = (List.range set.bits.size).countP fun state => set.contains state == true := by
      rw [bits_to_list, List.countP_map]
      rfl
    _ = set.toList.length := by
      simp only [toList, List.countP_eq_length_filter, beq_true]

def Represents (set : StateSet) (members : Finset Nat) : Prop :=
  ∀ state, state ∈ set ↔ state ∈ members

/-- Every question about the set is answered as for the finite set. Ordinals that the bitmap does
not cover are answered too. -/
structure AnswersLike (set : StateSet) (members : Finset Nat) : Prop where
  contains : ∀ state, set.contains state = decide (state ∈ members)
  beyond : ∀ state, set.bits.size ≤ state → set.contains state = false
  listed : set.toList = members.sort
  increasing : set.toList.Pairwise (· < ·)
  size : set.size = members.card
  isEmpty : set.isEmpty = decide (members = ∅)

theorem feed_keeping (set : StateSet) :
    set.feed (fun fed state => fed ++ [state]) [] = set.toList := by
  rw [feed, List.foldl_append_eq_append, List.nil_append, ← List.flatMap_def]
  exact List.flatMap_singleton' set.toList

section Represents

variable {set other : StateSet} {members others : Finset Nat}

theorem Represents.to_list_eq (represents : set.Represents members) :
    set.toList = members.sort := by
  apply set.to_list_increasing.eq_of_mem_iff members.sortedLT_sort.pairwise
  intro state
  rw [mem_to_list, Finset.mem_sort]
  exact represents state

theorem Represents.answers_like (represents : set.Represents members) :
    set.AnswersLike members where
  contains state := by
    rw [Bool.eq_iff_iff, decide_eq_true_iff]
    exact represents state
  beyond state := contains_of_size_le
  listed := represents.to_list_eq
  increasing := set.to_list_increasing
  size := by rw [size_eq_length, represents.to_list_eq, Finset.length_sort]
  isEmpty := by
    rw [Bool.eq_iff_iff, decide_eq_true_iff, is_empty_iff, Finset.eq_empty_iff_forall_notMem]
    exact forall_congr' fun state => not_congr (represents state)

theorem Represents.equal_iff (represents : set.Represents members)
    (represented : other.Represents others) :
    (set == other) = true ↔ members = others := by
  rw [beq_iff, Finset.ext_iff]
  apply forall_congr'
  intro state
  rw [represents state, represented state]

/-- A hasher that keeps what it is fed tells sets with different members apart, so all hashers are
fed alike just if the members are the same. -/
theorem Represents.eq_iff_feed (represents : set.Represents members)
    (represented : other.Represents others) :
    members = others ↔
      ∀ (σ : Type) (write : σ → Nat → σ) (hasher : σ),
        set.feed write hasher = other.feed write hasher := by
  constructor
  · intro same σ write hasher
    rw [feed, feed, represents.to_list_eq, represented.to_list_eq, same]
  · intro alike
    have kept := alike (List Nat) (fun fed state => fed ++ [state]) []
    rw [feed_keeping, feed_keeping] at kept
    apply (represents.equal_iff represented).1
    change (set.toList == other.toList) = true
    rw [kept]
    exact beq_self_eq_true _

end Represents

/-- What a caller may do with a set of states. A collected set takes the place of the old one. -/
inductive Operation where
  | insert (state : Nat)
  | extend (states : List Nat)
  | collect (states : List Nat)
  deriving DecidableEq, Repr

def perform (set : StateSet) : Operation → Option Bool × StateSet
  | .insert state => (some (set.insertNew state).1, (set.insertNew state).2)
  | .extend states => (none, set.insertMany states)
  | .collect states => (none, ofList states)

def Operation.onFinite (members : Finset Nat) : Operation → Option Bool × Finset Nat
  | .insert state => (some (decide (state ∉ members)), members ∪ {state})
  | .extend states => (none, members ∪ states.toFinset)
  | .collect states => (none, states.toFinset)

def runAll {σ : Type u} (perform : σ → Operation → Option Bool × σ) :
    List Operation → σ → List (Option Bool) × σ
  | [], current => ([], current)
  | operation :: rest, current =>
      ((perform current operation).1 :: (runAll perform rest (perform current operation).2).1,
        (runAll perform rest (perform current operation).2).2)

def made (operations : List Operation) : List (Option Bool) × StateSet :=
  runAll perform operations empty

def meant (operations : List Operation) : List (Option Bool) × Finset Nat :=
  runAll Operation.onFinite operations ∅

section Operations

variable {set : StateSet} {members : Finset Nat}

theorem represents_empty : empty.Represents ∅ := by
  intro state
  simp [not_mem_empty]

theorem Represents.insert (represents : set.Represents members) (state : Nat) :
    (set.insert state).Represents (members ∪ {state}) := by
  intro other
  rw [mem_insert, Finset.mem_union, Finset.mem_singleton, represents other]
  exact Or.comm

theorem Represents.insert_many (represents : set.Represents members) (states : List Nat) :
    (set.insertMany states).Represents (members ∪ states.toFinset) := by
  intro other
  rw [mem_insert_many, Finset.mem_union, List.mem_toFinset, represents other]
  exact Or.comm

theorem represents_of_list (states : List Nat) : (ofList states).Represents states.toFinset := by
  intro other
  rw [mem_of_list, List.mem_toFinset]

theorem Represents.perform (represents : set.Represents members) (operation : Operation) :
    (set.perform operation).1 = (operation.onFinite members).1 ∧
      (set.perform operation).2.Represents (operation.onFinite members).2 := by
  cases operation with
  | insert state =>
      have same := represents.answers_like.contains state
      constructor
      · simp [StateSet.perform, Operation.onFinite, same]
      · rw [StateSet.perform, insert_new_eq]
        exact represents.insert state
  | extend states => exact ⟨rfl, represents.insert_many states⟩
  | collect states => exact ⟨rfl, represents_of_list states⟩

theorem Represents.run_all (represents : set.Represents members) (operations : List Operation) :
    (runAll StateSet.perform operations set).1 =
        (runAll Operation.onFinite operations members).1 ∧
      (runAll StateSet.perform operations set).2.Represents
        (runAll Operation.onFinite operations members).2 := by
  induction operations generalizing set members with
  | nil => exact ⟨rfl, represents⟩
  | cons operation rest induction =>
      have first := represents.perform operation
      have later := induction first.2
      constructor
      · simp only [runAll, first.1, later.1]
      · exact later.2

end Operations

/-- Every insertion answers as on the finite set, and at the end all questions do. Two histories
lead to equal sets just if their finite sets are the same, and just then every hasher is fed the
same by both. -/
theorem operations_answer_like_finite_sets (operations others : List Operation) :
    (made operations).1 = (meant operations).1 ∧
      (made operations).2.AnswersLike (meant operations).2 ∧
      (((made operations).2 == (made others).2) = true ↔
        (meant operations).2 = (meant others).2) ∧
      ((meant operations).2 = (meant others).2 ↔
        ∀ (σ : Type) (write : σ → Nat → σ) (hasher : σ),
          (made operations).2.feed write hasher = (made others).2.feed write hasher) := by
  rcases represents_empty.run_all operations with ⟨answers, left⟩
  have right := (represents_empty.run_all others).2
  exact ⟨answers, left.answers_like, left.equal_iff right, left.eq_iff_feed right⟩

/-- Histories that insert the same states in different ways. -/
example :
    let first := made [.insert 4, .insert 0, .insert 7, .insert 4]
    let second := made [.insert 9, .collect [7, 4], .extend [0, 4]]
    first.1 = [some true, some true, some true, some false] ∧
      first.2.toList = [0, 4, 7] ∧ (first.2 == second.2) = true := by
  decide +kernel

end StateSet

end TreePattern
