/-!
# Settings

How patterns are compiled, and what to do when a derivation can be traced back in several ways.
-/

set_option autoImplicit false

namespace TreePattern

/-- What to do when a step has several predecessors: take the first one, or fail. -/
inductive Policy where
  | first
  | strict
  deriving DecidableEq, Repr

namespace Policy

def name : Policy → String
  | .first => "first"
  | .strict => "strict"

def ofName? (name : String) : Option Policy :=
  if name = "first" then some .first
  else if name = "strict" then some .strict
  else none

theorem of_name_eq_some_iff (text : String) (policy : Policy) :
    ofName? text = some policy ↔ text = policy.name := by
  cases policy <;> simp only [ofName?, name] <;> split <;> simp_all

end Policy

structure Settings where
  eliminateEpsilon : Bool := true
  policy : Policy := .first
  deriving DecidableEq, Repr

end TreePattern
