import TreePattern.Toml.Value

/-!
# Wrapped values

A table with the key `valueKey` stands for the value of that key, whatever else it holds. Wrapping
is undone wherever it stands below the keys of a document, so that settings are read as if they had
been written without it. The key `reservedKey` is not for documents: no table may hold it, not even
beside a wrapped value.
-/

set_option autoImplicit false

namespace TreePattern.Wrapped

open Toml (Value find?)

def valueKey : String := "___figment_value_value"

def reservedKey : String := "___figment_value_id"

def ofTable (entries : List (String × Value)) : Value :=
  (find? entries valueKey).getD (.table entries)

mutual

/-- A value without wrapping, at any depth; none if a table in it holds the reserved key. -/
def unwrap : Value → Option Value
  | .array items => (unwrapItems items).map .array
  | .table entries => (unwrapEntries entries).map ofTable
  | value => some value

def unwrapItems : List Value → Option (List Value)
  | [] => some []
  | item :: rest =>
      (unwrap item).bind fun first => (unwrapItems rest).map fun others => first :: others

def unwrapEntries : List (String × Value) → Option (List (String × Value))
  | [] => some []
  | (key, value) :: rest =>
      if key = reservedKey then none
      else
        (unwrap value).bind fun first =>
          (unwrapEntries rest).map fun others => (key, first) :: others

end

/-- The keys of a document itself are plain, whatever their names. -/
def unwrapSections : List (String × Value) → Option (List (String × Value))
  | [] => some []
  | (key, value) :: rest =>
      (unwrap value).bind fun first =>
        (unwrapSections rest).map fun others => (key, first) :: others

end TreePattern.Wrapped
