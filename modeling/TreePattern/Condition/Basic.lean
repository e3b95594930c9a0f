import TreePattern.Text.Render

/-!
# Conditions

A transition is labelled with a condition: either it consumes nothing, or it consumes one value that
passes a test. Tests are compared with `==` alone, and nothing is assumed of that comparison: a test
may even differ from itself.
-/

set_option autoImplicit false

namespace TreePattern

universe u v

class Matches (κ : Type u) (υ : Type v) where
  passes : κ → υ → Bool

inductive Condition (κ : Type u) where
  /-- Consumes nothing. -/
  | epsilon
  /-- Consumes a value that passes the test. -/
  | consume (test : κ)
  deriving BEq, Repr

namespace Condition

variable {κ : Type u} {υ : Type v}

def isEpsilon : Condition κ → Bool
  | .epsilon => true
  | .consume _ => false

def test? : Condition κ → Option κ
  | .epsilon => none
  | .consume test => some test

/-- No value matches the condition that consumes nothing. -/
def accepts [Matches κ υ] (condition : Condition κ) (value : υ) : Bool :=
  match condition with
  | .epsilon => false
  | .consume test => Matches.passes test value

instance [PlainText κ] : PlainText (Condition κ) where
  plain
    | .epsilon => "ε"
    | .consume test => plain test

@[simp] theorem accepts_epsilon [Matches κ υ] (value : υ) :
    (epsilon : Condition κ).accepts value = false := rfl

@[simp] theorem accepts_consume [Matches κ υ] (test : κ) (value : υ) :
    (consume test).accepts value = Matches.passes test value := rfl

@[simp] theorem test_eq_some_iff (condition : Condition κ) (test : κ) :
    condition.test? = some test ↔ condition = .consume test := by
  cases condition <;> simp [test?]

end Condition

end TreePattern
