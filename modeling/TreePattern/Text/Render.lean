import TreePattern.Number.Shortest
import TreePattern.Text.Quoted

/-!
# Plain and exact text of values

Every value that may label a transition has a plain text, in which it appears in listings. The
values of literals also have an exact text, from which text, character and number can be told
apart.
-/

set_option autoImplicit false

namespace TreePattern

universe u

class PlainText (α : Type u) where
  plain : α → String

class ExactText (α : Type u) where
  exact : α → String

export PlainText (plain)

instance : PlainText String := ⟨id⟩
instance : PlainText Char := ⟨String.singleton⟩
instance : PlainText Int := ⟨toString⟩
instance : PlainText Binary64 := ⟨Binary64.plainText⟩

instance : ExactText String := ⟨Text.quoted⟩
instance : ExactText Char := ⟨Text.quotedChar⟩
instance : ExactText Int := ⟨toString⟩
instance : ExactText Binary64 := ⟨Binary64.markedText⟩

end TreePattern
