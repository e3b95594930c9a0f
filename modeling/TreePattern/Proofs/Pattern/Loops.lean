import TreePattern.Pattern.Basic

/-!
# Where loops may touch

A repetition has no states of its own, so a loop at one end of a pattern is open to whatever is
wired there. A pattern begins or ends with a loop if a repetition stands at that end, blank items
left aside; a choice closes its items off. In a loop-separated pattern no two loops meet.
-/

set_option autoImplicit false

namespace TreePattern

universe u

namespace Pattern

variable {κ : Type u}

mutual

def isBlank : Pattern κ → Bool
  | .literal _ => false
  | .concat items => areBlank items
  | .choice _ => false
  | .star _ => false
  | .empty => true

def areBlank : List (Pattern κ) → Bool
  | [] => true
  | item :: rest => isBlank item && areBlank rest

end

mutual

def beginsWithLoop : Pattern κ → Bool
  | .literal _ => false
  | .concat items => sequenceBeginsWithLoop items
  | .choice _ => false
  | .star _ => true
  | .empty => false

def sequenceBeginsWithLoop : List (Pattern κ) → Bool
  | [] => false
  | item :: rest => if isBlank item then sequenceBeginsWithLoop rest else beginsWithLoop item

end

mutual

def endsWithLoop : Pattern κ → Bool
  | .literal _ => false
  | .concat items => sequenceEndsWithLoop items
  | .choice _ => false
  | .star _ => true
  | .empty => false

def sequenceEndsWithLoop : List (Pattern κ) → Bool
  | [] => false
  | item :: rest =>
      if areBlank rest then !isBlank item && endsWithLoop item else sequenceEndsWithLoop rest

end

/-- No item that ends with a loop stands directly in front of one that begins with a loop. -/
def loopsApart : List (Pattern κ) → Bool
  | [] => true
  | [_] => true
  | first :: second :: rest =>
      !(first.endsWithLoop && second.beginsWithLoop) && loopsApart (second :: rest)

mutual

/-- In no part of the pattern do loops meet: neither those of neighbouring items, once blank items
are dropped, nor a repetition with a loop at an end of its body. -/
def isLoopSeparated : Pattern κ → Bool
  | .literal _ => true
  | .concat items => areLoopSeparated items && loopsApart (items.filter fun item => !item.isBlank)
  | .choice items => areLoopSeparated items
  | .star body => isLoopSeparated body && !body.beginsWithLoop && !body.endsWithLoop
  | .empty => true

def areLoopSeparated : List (Pattern κ) → Bool
  | [] => true
  | item :: rest => isLoopSeparated item && areLoopSeparated rest

end

theorem are_blank_iff (items : List (Pattern κ)) :
    areBlank items = true ↔ ∀ item ∈ items, item.isBlank = true := by
  induction items with
  | nil => simp [areBlank]
  | cons item rest induction => simp [areBlank, induction]

theorem are_loop_separated_iff (items : List (Pattern κ)) :
    areLoopSeparated items = true ↔ ∀ item ∈ items, item.isLoopSeparated = true := by
  induction items with
  | nil => simp [areLoopSeparated]
  | cons item rest induction => simp [areLoopSeparated, induction]

theorem concat_loop_separated_iff (items : List (Pattern κ)) :
    (concat items).isLoopSeparated = true ↔
      (∀ item ∈ items, item.isLoopSeparated = true) ∧
        loopsApart (items.filter fun item => !item.isBlank) = true := by
  rw [isLoopSeparated, Bool.and_eq_true, are_loop_separated_iff]

theorem choice_loop_separated_iff (items : List (Pattern κ)) :
    (choice items).isLoopSeparated = true ↔ ∀ item ∈ items, item.isLoopSeparated = true := by
  rw [isLoopSeparated, are_loop_separated_iff]

theorem star_loop_separated_iff (body : Pattern κ) :
    (star body).isLoopSeparated = true ↔ body.isLoopSeparated = true ∧
      body.beginsWithLoop = false ∧ body.endsWithLoop = false := by
  rw [isLoopSeparated]
  simp [and_assoc]

theorem sequence_begins_blank {item : Pattern κ} (blank : item.isBlank = true)
    (rest : List (Pattern κ)) :
    sequenceBeginsWithLoop (item :: rest) = sequenceBeginsWithLoop rest := by
  rw [sequenceBeginsWithLoop, if_pos blank]

theorem sequence_begins_solid {item : Pattern κ} (solid : item.isBlank = false)
    (rest : List (Pattern κ)) :
    sequenceBeginsWithLoop (item :: rest) = item.beginsWithLoop := by
  rw [sequenceBeginsWithLoop, solid]
  rfl

theorem begins_of_loops_apart {item : Pattern κ} {rest : List (Pattern κ)}
    (apart : loopsApart (item :: rest.filter fun other => !other.isBlank) = true)
    (ends : item.endsWithLoop = true) : sequenceBeginsWithLoop rest = false := by
  induction rest with
  | nil => rfl
  | cons next rest induction =>
      cases blank : next.isBlank with
      | true =>
          rw [sequence_begins_blank blank]
          rw [List.filter_cons_of_neg (by simp [blank])] at apart
          exact induction apart
      | false =>
          rw [sequence_begins_solid blank]
          rw [List.filter_cons_of_pos (by simp [blank]), loopsApart, ends] at apart
          simp only [Bool.true_and, Bool.and_eq_true, Bool.not_eq_true'] at apart
          exact apart.1

theorem loops_apart_tail {item : Pattern κ} {rest : List (Pattern κ)}
    (apart : loopsApart (item :: rest) = true) : loopsApart rest = true := by
  cases rest with
  | nil => rfl
  | cons second rest =>
      rw [loopsApart, Bool.and_eq_true] at apart
      exact apart.2

end Pattern

end TreePattern
