import TreePattern.Automaton.GrowingArray

/-!
# Sets of states

A state is its ordinal, a natural number. A set of states is a bitmap that grows to the largest
ordinal ever inserted; its view is the increasing list of its members, through which equality and
hashing are defined, so that neither depends on how the bitmap grew.
-/

set_option autoImplicit false

namespace TreePattern

universe u

structure StateSet where
  bits : Array Bool := #[]

namespace StateSet

def empty : StateSet := {}

instance : Inhabited StateSet := ⟨empty⟩

/-- Ordinals past the end of the bitmap are no members. -/
def contains (set : StateSet) (state : Nat) : Bool := set.bits[state]?.getD false

instance : Membership Nat StateSet := ⟨fun set state => set.contains state = true⟩

instance (state : Nat) (set : StateSet) : Decidable (state ∈ set) :=
  inferInstanceAs (Decidable (set.contains state = true))

def insert (set : StateSet) (state : Nat) : StateSet :=
  ⟨(growTo set.bits (state + 1) false).setIfInBounds state true⟩

/-- Inserts, and tells whether the state was new: its bit in the bitmap that has grown to hold it
was not set before. -/
def insertNew (set : StateSet) (state : Nat) : Bool × StateSet :=
  let grown := growTo set.bits (state + 1) false
  (!grown[state]?.getD false, ⟨grown.setIfInBounds state true⟩)

def insertMany (set : StateSet) (states : List Nat) : StateSet :=
  states.foldl insert set

def ofList (states : List Nat) : StateSet := empty.insertMany states

def toList (set : StateSet) : List Nat :=
  (List.range set.bits.size).filter set.contains

def size (set : StateSet) : Nat := set.bits.count true

def isEmpty (set : StateSet) : Bool := set.bits.toList.all not

instance : BEq StateSet := ⟨fun left right => left.toList == right.toList⟩

instance : Hashable StateSet := ⟨fun set => hash set.toList⟩

def feed {σ : Type u} (set : StateSet) (write : σ → Nat → σ) (hasher : σ) : σ :=
  set.toList.foldl write hasher

theorem mem_def (state : Nat) (set : StateSet) :
    state ∈ set ↔ set.contains state = true := Iff.rfl

theorem not_mem_empty (state : Nat) : ¬ state ∈ empty := by
  simp [mem_def, contains, empty]

@[simp] theorem mem_insert (set : StateSet) (state other : Nat) :
    other ∈ set.insert state ↔ other = state ∨ other ∈ set := by
  simp only [mem_def, contains, insert, Array.getElem?_setIfInBounds, size_grow_to]
  by_cases same : state = other
  · subst same
    have bound : state < max set.bits.size (state + 1) := by omega
    simp [bound]
  · rw [if_neg same, get_grow_to]
    constructor
    · exact Or.inr
    · intro given
      rcases given with rfl | member
      · exact absurd rfl same
      · exact member

@[simp] theorem insert_new_eq (set : StateSet) (state : Nat) :
    set.insertNew state = (!set.contains state, set.insert state) := by
  simp only [insertNew, get_grow_to, contains, insert]

theorem mem_insert_many (states : List Nat) (set : StateSet) (other : Nat) :
    other ∈ set.insertMany states ↔ other ∈ states ∨ other ∈ set := by
  induction states generalizing set with
  | nil => simp [insertMany]
  | cons state rest induction =>
      have step : set.insertMany (state :: rest) = (set.insert state).insertMany rest := rfl
      rw [step, induction, mem_insert, List.mem_cons]
      constructor
      · intro member
        rcases member with inRest | same | inSet
        · exact Or.inl (Or.inr inRest)
        · exact Or.inl (Or.inl same)
        · exact Or.inr inSet
      · intro member
        rcases member with (same | inRest) | inSet
        · exact Or.inr (Or.inl same)
        · exact Or.inl inRest
        · exact Or.inr (Or.inr inSet)

@[simp] theorem mem_of_list (states : List Nat) (state : Nat) :
    state ∈ ofList states ↔ state ∈ states := by
  simp [ofList, mem_insert_many, not_mem_empty]

theorem lt_size_of_mem {set : StateSet} {state : Nat} (member : state ∈ set) :
    state < set.bits.size := by
  simp only [mem_def, contains] at member
  by_cases bound : state < set.bits.size
  · exact bound
  · rw [Array.getElem?_eq_none (Nat.le_of_not_lt bound)] at member
    simp at member

@[simp] theorem mem_to_list (set : StateSet) (state : Nat) :
    state ∈ set.toList ↔ state ∈ set := by
  simp only [toList, List.mem_filter, List.mem_range, ← mem_def]
  exact ⟨And.right, fun member => ⟨lt_size_of_mem member, member⟩⟩

theorem to_list_increasing (set : StateSet) : set.toList.Pairwise (· < ·) :=
  List.Pairwise.filter _ List.pairwise_lt_range

theorem is_empty_iff (set : StateSet) :
    set.isEmpty = true ↔ ∀ state, ¬ state ∈ set := by
  simp only [isEmpty, List.all_eq_true, mem_def, contains]
  constructor
  · intro blank state present
    have found : set.bits[state]? = some true := by
      cases entry : set.bits[state]? with
      | none => simp [entry] at present
      | some bit => simpa [entry] using present
    have listed : true ∈ set.bits.toList := by
      rw [Array.mem_toList_iff]
      exact Array.mem_of_getElem? found
    exact absurd (blank true listed) (by decide)
  · intro absent bit listed
    cases bit with
    | false => rfl
    | true =>
        rw [Array.mem_toList_iff] at listed
        obtain ⟨state, found⟩ := Array.mem_iff_getElem?.1 listed
        exact absurd (by simp [found]) (absent state)

end StateSet

end TreePattern
