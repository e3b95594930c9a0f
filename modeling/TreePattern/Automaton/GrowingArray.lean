/-!
# Arrays that grow on demand

Bitmaps of states and tables of transitions are indexed by state and grow when a larger state is
mentioned. New entries are blank, so reading with the blank entry as a default shows no growth.
-/

set_option autoImplicit false

namespace TreePattern

universe u

variable {α : Type u}

def growTo (entries : Array α) (size : Nat) (blank : α) : Array α :=
  entries ++ Array.replicate (size - entries.size) blank

@[simp] theorem size_grow_to (entries : Array α) (size : Nat) (blank : α) :
    (growTo entries size blank).size = max entries.size size := by
  simp only [growTo, Array.size_append, Array.size_replicate]
  omega

@[simp] theorem get_grow_to (entries : Array α) (size : Nat) (blank : α) (index : Nat) :
    (growTo entries size blank)[index]?.getD blank = entries[index]?.getD blank := by
  simp only [growTo, Array.getElem?_append]
  split
  · rfl
  · rename_i outside
    rw [Array.getElem?_eq_none (Nat.le_of_not_lt outside), Array.getElem?_replicate]
    split <;> rfl

end TreePattern
