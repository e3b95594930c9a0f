/-!
# Ordered collections

A set of entries is kept as a list that is strictly increasing by a key, so that equal sets are
equal lists and the answer lists its entries in order.
-/

set_option autoImplicit false

namespace TreePattern

universe u

variable {α : Type u}

/-- Inserts an element into an increasing list, unless its key is there already. -/
def insertByKey (key : α → List Nat) (element : α) : List α → List α
  | [] => [element]
  | first :: rest =>
      if key element < key first then element :: first :: rest
      else if key element = key first then first :: rest
      else first :: insertByKey key element rest

def orderByKey (key : α → List Nat) (elements : List α) : List α :=
  elements.foldr (insertByKey key) []

theorem mem_insert_by_key {key : α → List Nat}
    (injective : ∀ left right, key left = key right → left = right) (element other : α)
    (elements : List α) :
    other ∈ insertByKey key element elements ↔ other = element ∨ other ∈ elements := by
  induction elements with
  | nil => simp [insertByKey]
  | cons first rest induction =>
      unfold insertByKey
      split
      · simp
      · split
        · rename_i same
          have equal := injective element first same
          subst equal
          simp
        · simp only [List.mem_cons, induction]
          constructor
          · intro member
            rcases member with isFirst | isElement | inRest
            · exact Or.inr (Or.inl isFirst)
            · exact Or.inl isElement
            · exact Or.inr (Or.inr inRest)
          · intro member
            rcases member with isElement | isFirst | inRest
            · exact Or.inr (Or.inl isElement)
            · exact Or.inl isFirst
            · exact Or.inr (Or.inr inRest)

theorem mem_order_by_key {key : α → List Nat}
    (injective : ∀ left right, key left = key right → left = right) (other : α)
    (elements : List α) : other ∈ orderByKey key elements ↔ other ∈ elements := by
  induction elements with
  | nil => simp [orderByKey]
  | cons first rest induction =>
      have step : orderByKey key (first :: rest) =
          insertByKey key first (orderByKey key rest) := rfl
      rw [step, mem_insert_by_key injective, induction, List.mem_cons]

end TreePattern
