import TreePattern.Settings.Basic
import TreePattern.Settings.Wrapped
import TreePattern.Toml.Reader

/-!
# Reading settings

Settings are read from a TOML document with a section for compiling and one for the engine. What the
document does not mention keeps its default, and keys without a meaning are ignored. A section may
also be an array, whose first item takes the place of its only key, or a date or time, which is read
as a table with a key that no section asks for. Wrapped values are unwrapped before. The first fault
found is reported, in the order of the sections.
-/

set_option autoImplicit false

namespace TreePattern

inductive SettingsFault where
  /-- There is no document, the text is not one, or a table in it holds the reserved key. -/
  | unreadable
  /-- The value has the wrong type. -/
  | invalidType (path : List String)
  /-- The value names no policy. -/
  | unknownPolicy (path : List String)
  deriving DecidableEq, Repr

namespace Settings

open Toml (Value find?)

/-- The only key of a date or time, when it is read as a table. -/
def momentKey : String := "$__toml_private_datetime"

def entries? : Value → Option (List (String × Value))
  | .table entries => some entries
  | .moment written => some [(momentKey, .text written)]
  | _ => none

/-- The value for the only key of a section, if the section has it, and the path to it. -/
def sectionValue (sections : List (String × Value)) (name key : String) :
    Except SettingsFault (Option (Value × List String)) :=
  match find? sections name with
  | none => .ok none
  | some (.array items) => .ok (items.head?.map fun value => (value, [name, "0"]))
  | some value =>
      match entries? value with
      | some entries => .ok ((find? entries key).map fun found => (found, [name, key]))
      | none => .error (.invalidType [name])

def readFlag (value : Value) (path : List String) : Except SettingsFault Bool :=
  match value with
  | .boolean truth => .ok truth
  | _ => .error (.invalidType path)

def leastKey? (entries : List (String × Value)) : Option String :=
  (entries.map (·.1)).foldl
    (fun least key =>
      match least with
      | none => some key
      | some other => if key < other then some key else some other)
    none

/-- A policy is given by its name. A table with entries is taken for a policy with data, named by
the least key, and a fault found in it lies below that key: no policy has data. -/
def readPolicy (value : Value) (path : List String) : Except SettingsFault Policy :=
  match value with
  | .text name =>
      match Policy.ofName? name with
      | some policy => .ok policy
      | none => .error (.unknownPolicy path)
  | _ =>
      match (entries? value).bind leastKey? with
      | none => .error (.invalidType path)
      | some key =>
          if (Policy.ofName? key).isSome then .error (.invalidType (path ++ [key]))
          else .error (.unknownPolicy (path ++ [key]))

def readSection {α : Type} (sections : List (String × Value)) (name key : String) (default : α)
    (read : Value → List String → Except SettingsFault α) : Except SettingsFault α :=
  match sectionValue sections name key with
  | .error fault => .error fault
  | .ok none => .ok default
  | .ok (some (value, path)) => read value path

def ofSections (sections : List (String × Value)) : Except SettingsFault Settings :=
  match readSection sections "compile" "eliminate_epsilon" true readFlag with
  | .error fault => .error fault
  | .ok eliminateEpsilon =>
      match readSection sections "engine" "ambiguity" Policy.first readPolicy with
      | .error fault => .error fault
      | .ok policy => .ok ⟨eliminateEpsilon, policy⟩

def ofDocument? (document? : Option String) : Except SettingsFault Settings :=
  match (document?.bind Toml.parse).bind Wrapped.unwrapSections with
  | none => .error .unreadable
  | some sections => ofSections sections

end Settings

end TreePattern
