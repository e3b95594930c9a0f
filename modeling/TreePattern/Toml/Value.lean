import TreePattern.Number.Binary64

/-!
# TOML values

What a TOML document can hold. Tables keep their entries in the order of their definition, with each
key once. Dates and times are kept as they were written, after their fields have been checked.
-/

set_option autoImplicit false

namespace TreePattern.Toml

inductive Value where
  | text (text : String)
  | integer (number : Int)
  | float (number : Binary64)
  | boolean (truth : Bool)
  | moment (written : String)
  | array (items : List Value)
  | table (entries : List (String × Value))
  deriving Repr

def find? {α : Type} (entries : List (String × α)) (key : String) : Option α :=
  entries.lookup key

end TreePattern.Toml
