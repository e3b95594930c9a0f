/-!
# Patterns

A pattern describes words over values: a literal is one value that passes a test, and patterns are
combined in sequence, as alternatives and by repetition. Two patterns are equal if they have the
same shape and their tests are equal by `==`.
-/

set_option autoImplicit false

namespace TreePattern

universe u

inductive Pattern (κ : Type u) where
  /-- One value that passes the test. -/
  | literal (test : κ)
  /-- The items one after the other. -/
  | concat (items : List (Pattern κ))
  /-- Any one of the items. -/
  | choice (items : List (Pattern κ))
  /-- The body any number of times. -/
  | star (body : Pattern κ)
  /-- The empty word. -/
  | empty
  deriving Repr

namespace Pattern

variable {κ : Type u}

def plus (body : Pattern κ) : Pattern κ := .concat [body, .star body]

def optional (body : Pattern κ) : Pattern κ := .choice [.empty, body]

mutual

def sameShape [BEq κ] : Pattern κ → Pattern κ → Bool
  | .literal left, .literal right => left == right
  | .concat left, .concat right => sameShapes left right
  | .choice left, .choice right => sameShapes left right
  | .star left, .star right => sameShape left right
  | .empty, .empty => true
  | _, _ => false

def sameShapes [BEq κ] : List (Pattern κ) → List (Pattern κ) → Bool
  | [], [] => true
  | left :: lefts, right :: rights => sameShape left right && sameShapes lefts rights
  | _, _ => false

end

instance [BEq κ] : BEq (Pattern κ) := ⟨sameShape⟩

end Pattern

end TreePattern
