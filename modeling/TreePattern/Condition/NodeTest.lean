import TreePattern.Condition.Basic
import TreePattern.Tree.Basic

/-!
# Tests of tree nodes

A node test asks for a symbol. If it also asks for a value, only leaves with that value pass.
-/

set_option autoImplicit false

namespace TreePattern

universe u

structure NodeTest where
  symbol : String
  value : Option String := none
  deriving DecidableEq, Repr

namespace NodeTest

variable {π : Type u}

def passes (test : NodeTest) (node : Node π) : Bool :=
  node.symbol == test.symbol &&
    match test.value with
    | none => true
    | some value => node.isLeaf && node.value == some value

instance : Matches NodeTest (Node π) := ⟨passes⟩

instance : PlainText NodeTest where
  plain test :=
    match test.value with
    | none => test.symbol
    | some value => test.symbol ++ "(" ++ Text.quoted value ++ ")"

theorem passes_iff (test : NodeTest) (node : Node π) :
    test.passes node = true ↔
      node.symbol = test.symbol ∧
        ∀ value, test.value = some value → node.isLeaf = true ∧ node.value = some value := by
  unfold passes
  cases test.value <;> simp

end NodeTest

end TreePattern
