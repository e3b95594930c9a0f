import TreePattern.Condition.Basic

/-!
# Literals

A literal is passed by the values equal to its own. Equality is that of the values, so a literal
that holds not-a-number is passed by nothing and differs from itself.
-/

set_option autoImplicit false

namespace TreePattern

universe u

structure Literal (α : Type u) where
  value : α
  deriving Repr

namespace Literal

variable {α : Type u}

instance [BEq α] : BEq (Literal α) := ⟨fun left right => left.value == right.value⟩

instance [BEq α] : Matches (Literal α) α := ⟨fun literal value => literal.value == value⟩

instance [PlainText α] : PlainText (Literal α) := ⟨fun literal => plain literal.value⟩

instance [ExactText α] : ExactText (Literal α) := ⟨fun literal => ExactText.exact literal.value⟩

theorem passes_def [BEq α] (literal : Literal α) (value : α) :
    Matches.passes literal value = (literal.value == value) := rfl

theorem beq_def [BEq α] (left right : Literal α) :
    (left == right) = (left.value == right.value) := rfl

end Literal

end TreePattern
