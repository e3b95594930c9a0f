import TreePattern.Toml.Value

/-!
# Assembling tables

A document is assembled from headers, which open a table or a new element of an array of tables, and
from assignments to keys of the open table. A table may be opened once, tables that came about by
dotted keys are closed to headers, and no key is defined twice. Inline tables follow the same rules
for their assignments.
-/

set_option autoImplicit false

namespace TreePattern.Toml

inductive Origin where
  /-- By a header of its own, or as the table that is being read. -/
  | opened
  /-- By the header of a table inside it. -/
  | implied
  /-- By a dotted key. -/
  | dotted
  deriving DecidableEq, Repr

inductive Entry where
  | value (value : Value)
  | table (origin : Origin) (entries : List (String × Entry))
  | tables (elements : List (List (String × Entry)))
  deriving Repr

abbrev Entries := List (String × Entry)

def replace (entries : Entries) (key : String) (entry : Entry) : Entries :=
  entries.map fun pair => if pair.1 = key then (key, entry) else pair

/-- Changes the table that a path leads to. Missing tables on the way come about with the origin
`missing`; of an array of tables the last element is meant. An assignment does not pass through a
table that was opened by a header. -/
def update (missing : Origin) (change : Origin → Entries → Option Entries) :
    List String → Origin → Entries → Option Entries
  | [], origin, entries => change origin entries
  | key :: path, _, entries =>
      match find? entries key with
      | none =>
          (update missing change path missing []).map fun table =>
            entries ++ [(key, .table missing table)]
      | some (.value _) => none
      | some (.table origin table) =>
          if missing = .dotted ∧ origin = .opened then none
          else (update missing change path origin table).map fun changed =>
            replace entries key (.table origin changed)
      | some (.tables elements) =>
          match elements.getLast? with
          | none => none
          | some last =>
              (update missing change path .opened last).map fun changed =>
                replace entries key (.tables (elements.dropLast ++ [changed]))

def define (key : String) (entry : Entry) (entries : Entries) : Option Entries :=
  match find? entries key with
  | none => some (entries ++ [(key, entry)])
  | some _ => none

/-- Assigns to a key of the open table. The tables that its parts lead through must have come about
by dotted keys. -/
def assign (parts : List String) (value : Value) (origin : Origin) (entries : Entries) :
    Option Entries :=
  match parts.getLast? with
  | none => none
  | some key =>
      let path := parts.dropLast
      update .dotted
        (fun reached table =>
          if path ≠ [] ∧ reached ≠ .dotted then none else define key (.value value) table)
        path origin entries

/-- Opens the table with the given key, which may exist by implication only. -/
def openTable (key : String) (entries : Entries) : Option Entries :=
  match find? entries key with
  | none => some (entries ++ [(key, .table .opened [])])
  | some (.table .implied table) => some (replace entries key (.table .opened table))
  | some _ => none

def openElement (key : String) (entries : Entries) : Option Entries :=
  match find? entries key with
  | none => some (entries ++ [(key, .tables [[]])])
  | some (.tables elements) => some (replace entries key (.tables (elements ++ [[]])))
  | some _ => none

def underPath (parts : List String) (openKey : String → Entries → Option Entries)
    (entries : Entries) : Option Entries :=
  match parts.getLast? with
  | none => none
  | some key =>
      update .implied (fun _ table => openKey key table) parts.dropLast .opened entries

inductive Statement where
  | table (parts : List String)
  | element (parts : List String)
  | assignment (parts : List String) (value : Value)
  deriving Repr

structure Draft where
  entries : Entries := []
  current : List String := []

def Draft.add (draft : Draft) : Statement → Option Draft
  | .table parts => (underPath parts openTable draft.entries).map fun entries => ⟨entries, parts⟩
  | .element parts =>
      (underPath parts openElement draft.entries).map fun entries => ⟨entries, parts⟩
  | .assignment parts value =>
      (update .implied (assign parts value) draft.current .opened draft.entries).map fun entries =>
        { draft with entries := entries }

/-! ## From entries to values -/

mutual

def Entry.toValue : Entry → Value
  | .value value => value
  | .table _ entries => .table (toValues entries)
  | .tables elements => .array (elementValues elements)

def toValues : List (String × Entry) → List (String × Value)
  | [] => []
  | (key, entry) :: rest => (key, entry.toValue) :: toValues rest

def elementValues : List (List (String × Entry)) → List Value
  | [] => []
  | entries :: rest => .table (toValues entries) :: elementValues rest

end

def assemble (statements : List Statement) : Option (List (String × Value)) :=
  (statements.foldlM Draft.add {}).map fun draft => toValues draft.entries

def assembleInline (pairs : List (List String × Value)) : Option Value :=
  (pairs.foldlM (fun entries pair => assign pair.1 pair.2 .opened entries) []).map fun entries =>
    .table (toValues entries)

end TreePattern.Toml
