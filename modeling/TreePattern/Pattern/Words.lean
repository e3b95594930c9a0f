import TreePattern.Condition.Basic
import TreePattern.Pattern.Basic

/-!
# The words of a pattern

What a pattern describes, independently of any automaton: a literal stands for the words of one
passing value, a sequence for the concatenations, a choice for the union and a repetition for any
number of words of its body. An empty sequence has the empty word only, an empty choice has no word.
-/

set_option autoImplicit false

namespace TreePattern

universe u v

namespace Pattern

variable {κ : Type u} {υ : Type v}

mutual

inductive Describes [Matches κ υ] : Pattern κ → List υ → Prop where
  | literal {test : κ} {value : υ} (passes : Matches.passes test value = true) :
      Describes (.literal test) [value]
  | concat {items : List (Pattern κ)} {word : List υ} (parts : DescribesAll items word) :
      Describes (.concat items) word
  | choice {items : List (Pattern κ)} {item : Pattern κ} {word : List υ} (member : item ∈ items)
      (part : Describes item word) : Describes (.choice items) word
  | starNil {body : Pattern κ} : Describes (.star body) []
  | starCons {body : Pattern κ} {first rest : List υ} (once : Describes body first)
      (again : Describes (.star body) rest) : Describes (.star body) (first ++ rest)
  | empty : Describes .empty []

inductive DescribesAll [Matches κ υ] : List (Pattern κ) → List υ → Prop where
  | nil : DescribesAll [] []
  | cons {item : Pattern κ} {items : List (Pattern κ)} {first rest : List υ}
      (part : Describes item first) (parts : DescribesAll items rest) :
      DescribesAll (item :: items) (first ++ rest)

end

theorem describes_plus [Matches κ υ] {body : Pattern κ} {first rest : List υ}
    (once : Describes body first) (again : Describes (.star body) rest) :
    Describes body.plus (first ++ rest) := by
  have tail : DescribesAll [Pattern.star body] (rest ++ []) := .cons again .nil
  rw [List.append_nil] at tail
  exact .concat (.cons once tail)

theorem describes_optional_nil [Matches κ υ] (body : Pattern κ) :
    Describes body.optional ([] : List υ) :=
  .choice (List.mem_cons_self ..) .empty

theorem describes_optional_some [Matches κ υ] {body : Pattern κ} {word : List υ}
    (once : Describes body word) : Describes body.optional word :=
  .choice (List.mem_cons_of_mem _ (List.mem_cons_self ..)) once

end Pattern

end TreePattern
