import TreePattern.Condition.Literal
import TreePattern.Condition.NodeTest
import TreePattern.Number.Binary64

/-!
# Lawful tests

Grouping transitions by equal tests keeps what they match if the comparison is symmetric and
transitive and if equal tests pass the same values. A test need not equal itself. Literals of any
values compared that way are lawful, not-a-number included, and so are node tests.
-/

set_option autoImplicit false

namespace TreePattern

universe u v

/-- Equal tests pass the same values, and being equal is symmetric and transitive. -/
class LawfulTests (κ : Type u) (υ : Type v) [BEq κ] [Matches κ υ] : Prop
    extends PartialEquivBEq κ where
  passes_eq {left right : κ} (value : υ) (same : (left == right) = true) :
    Matches.passes left value = Matches.passes right value

instance : PartialEquivBEq Binary64 where
  symm := Binary64.beq_symm
  trans := Binary64.beq_trans

instance {α : Type u} [BEq α] [PartialEquivBEq α] : LawfulTests (Literal α) α where
  symm same := PartialEquivBEq.symm (α := α) same
  trans first second := PartialEquivBEq.trans (α := α) first second
  passes_eq {left right} value same := by
    rw [Literal.beq_def] at same
    rw [Literal.passes_def, Literal.passes_def, Bool.eq_iff_iff]
    constructor
    · intro passes
      exact PartialEquivBEq.trans (PartialEquivBEq.symm same) passes
    · intro passes
      exact PartialEquivBEq.trans same passes

instance {α : Type u} [BEq α] [ReflBEq α] : ReflBEq (Literal α) where
  rfl {literal} := ReflBEq.rfl (a := literal.value)

instance {π : Type u} : LawfulTests NodeTest (Node π) where
  symm same := by
    rw [beq_iff_eq] at same ⊢
    exact same.symm
  trans first second := by
    rw [beq_iff_eq] at first second ⊢
    exact first.trans second
  passes_eq value same := by
    rw [beq_iff_eq] at same
    rw [same]

end TreePattern
