import TreePattern.Pattern.Words

/-!
# How patterns fuse when they share states

The end of one item is the beginning of the next, and a repetition joins both ends of its body. So
what a wired pattern reads is decided by how it looks from its two ends: either both ends are one
state, around which some loops run, or it leads from a state with loops to another one with loops.
Loops that meet at one state may be taken in any order. The fused pattern spells this out; it has
all words of the pattern, and more where repetitions touch.
-/

set_option autoImplicit false

namespace TreePattern

universe u v

/-- A wired pattern as seen from its two ends. -/
inductive Profile (κ : Type u) where
  /-- Both ends are one state, around which the bodies run. -/
  | loop (bodies : List (Pattern κ))
  /-- The core leads from the beginning to the end; loops run around each of them. -/
  | through (front : List (Pattern κ)) (core : Pattern κ) (back : List (Pattern κ))

namespace Profile

variable {κ : Type u}

def pattern : Profile κ → Pattern κ
  | loop bodies => .star (.choice bodies)
  | through front core back => .concat [.star (.choice front), core, .star (.choice back)]

/-- One behind the other: the end of the first is the beginning of the second. -/
def follow : Profile κ → Profile κ → Profile κ
  | loop first, loop second => .loop (first ++ second)
  | loop first, through front core back => .through (first ++ front) core back
  | through front core back, loop second => .through front core (back ++ second)
  | through front core back, through front' core' back' =>
      .through front (.concat [core, .star (.choice (back ++ front')), core']) back'

def joined : Profile κ → Profile κ
  | loop bodies => .loop bodies
  | through front core back => .loop (front ++ core :: back)

end Profile

namespace Pattern

variable {κ : Type u} {υ : Type v}

mutual

def profile : Pattern κ → Profile κ
  | .literal test => .through [] (.literal test) []
  | .concat items => profileSequence items
  | .choice items => .through [] (.choice (fusedItems items)) []
  | .star body => (profile body).joined
  | .empty => .loop []

def profileSequence : List (Pattern κ) → Profile κ
  | [] => .loop []
  | item :: rest => (profile item).follow (profileSequence rest)

def fusedItems : List (Pattern κ) → List (Pattern κ)
  | [] => []
  | item :: rest => (profile item).pattern :: fusedItems rest

end

/-- What the wiring of the pattern reads. -/
def fused (pattern : Pattern κ) : Pattern κ := pattern.profile.pattern

theorem mem_fused_items (items : List (Pattern κ)) (other : Pattern κ) :
    other ∈ fusedItems items ↔ ∃ item ∈ items, item.fused = other := by
  induction items with
  | nil => simp [fusedItems]
  | cons item rest induction =>
      simp only [fusedItems, List.mem_cons, induction, fused]
      constructor
      · intro member
        rcases member with same | ⟨later, inRest, same⟩
        · exact ⟨item, Or.inl rfl, same.symm⟩
        · exact ⟨later, Or.inr inRest, same⟩
      · intro member
        obtain ⟨found, isItem | inRest, same⟩ := member
        · exact Or.inl (isItem ▸ same.symm)
        · exact Or.inr ⟨found, inRest, same⟩

/-- Induction over patterns, with the claim for all items of a sequence or a choice. -/
theorem item_induction {motive : Pattern κ → Prop} (literal : ∀ test, motive (.literal test))
    (concat : ∀ items, (∀ item ∈ items, motive item) → motive (.concat items))
    (choice : ∀ items, (∀ item ∈ items, motive item) → motive (.choice items))
    (star : ∀ body, motive body → motive (.star body)) (empty : motive .empty)
    (pattern : Pattern κ) : motive pattern := by
  refine @Pattern.rec κ motive (fun items => ∀ item ∈ items, motive item)
    literal concat choice star empty ?nil ?cons pattern
  case nil =>
    intro item member
    exact absurd member List.not_mem_nil
  case cons =>
    intro first rest holdsFirst holdsRest item member
    rcases List.mem_cons.1 member with rfl | inRest
    · exact holdsFirst
    · exact holdsRest item inRest

section Leads

variable [Matches κ υ]

/-- A word of the pattern in front of a word of `after` is a word of `before`. -/
def Leads (pattern : Pattern κ) (before after : List υ → Prop) : Prop :=
  ∀ first rest, pattern.Describes first → after rest → before (first ++ rest)

def inFront (pattern : Pattern κ) (after : List υ → Prop) (word : List υ) : Prop :=
  ∃ first rest, word = first ++ rest ∧ pattern.Describes first ∧ after rest

theorem leads_in_front (pattern : Pattern κ) (after : List υ → Prop) :
    pattern.Leads (pattern.inFront after) after :=
  fun first rest once later => ⟨first, rest, rfl, once, later⟩

theorem Leads.of_in_front {pattern : Pattern κ} {before after : List υ → Prop}
    (leads : pattern.Leads before after) {word : List υ} (split : pattern.inFront after word) :
    before word := by
  obtain ⟨first, rest, rfl, once, later⟩ := split
  exact leads first rest once later

/-- Induction over the number of times that a repetition goes around. -/
theorem star_induction {body : Pattern κ} {motive : List υ → Prop} (none : motive [])
    (again : ∀ first rest, body.Describes first → motive rest → motive (first ++ rest))
    {word : List υ} (described : (Pattern.star body).Describes word) : motive word := by
  have general : ∀ pattern word, pattern.Describes word → pattern = Pattern.star body →
      motive word := by
    intro pattern word described
    refine @Describes.rec κ υ _ (fun pattern word _ => pattern = Pattern.star body → motive word)
      (fun _ _ _ => True) ?_ ?_ ?_ ?_ ?_ ?_ trivial (fun _ _ _ _ => trivial) pattern word described
    · intro _ _ _ same
      cases same
    · intro _ _ _ _ same
      cases same
    · intro _ _ _ _ _ _ same
      cases same
    · intro _ _
      exact none
    · intro _ first rest once _ _ later same
      cases same
      exact again first rest once (later rfl)
    · intro same
      cases same
  exact general _ word described rfl

theorem Leads.star {body : Pattern κ} {words : List υ → Prop} (leads : body.Leads words words) :
    (Pattern.star body).Leads words words := by
  intro repeated rest described later
  apply star_induction (motive := fun repeated => words (repeated ++ rest)) later _ described
  intro first others once onward
  rw [List.append_assoc]
  exact leads first (others ++ rest) once onward

theorem in_front_star_of_after (body : Pattern κ) {after : List υ → Prop} {word : List υ}
    (later : after word) : (Pattern.star body).inFront after word :=
  ⟨[], word, rfl, .starNil, later⟩

theorem leads_in_front_star (body : Pattern κ) (after : List υ → Prop) :
    body.Leads ((Pattern.star body).inFront after) ((Pattern.star body).inFront after) := by
  intro first rest once split
  obtain ⟨repeated, tail, rfl, again, later⟩ := split
  exact ⟨first ++ repeated, tail, (List.append_assoc ..).symm, .starCons once again, later⟩

theorem leads_choice_iff {items : List (Pattern κ)} {before after : List υ → Prop} :
    (Pattern.choice items).Leads before after ↔ ∀ item ∈ items, item.Leads before after := by
  constructor
  · intro leads item member first rest once later
    exact leads first rest (.choice member once) later
  · intro leads first rest once later
    cases once with
    | choice member part => exact leads _ member first rest part later

theorem describes_concat_two {left right : Pattern κ} {word : List υ} :
    (Pattern.concat [left, right]).Describes word ↔ left.inFront right.Describes word := by
  constructor
  · intro described
    cases described with
    | concat parts =>
        obtain _ | ⟨first, rest⟩ := parts
        obtain _ | ⟨second, rest⟩ := rest
        cases rest
        exact ⟨_, _, rfl, first, by rwa [List.append_nil]⟩
  · intro split
    obtain ⟨first, second, rfl, once, again⟩ := split
    have tail : DescribesAll [right] (second ++ []) := .cons again .nil
    rw [List.append_nil] at tail
    exact .concat (.cons once tail)

theorem describes_concat_three {left middle right : Pattern κ} {word : List υ} :
    (Pattern.concat [left, middle, right]).Describes word ↔
      left.inFront (middle.inFront right.Describes) word := by
  constructor
  · intro described
    cases described with
    | concat parts =>
        obtain _ | ⟨first, rest⟩ := parts
        obtain _ | ⟨second, rest⟩ := rest
        obtain _ | ⟨third, rest⟩ := rest
        cases rest
        exact ⟨_, _, rfl, first, _, _, rfl, second, by rwa [List.append_nil]⟩
  · intro split
    obtain ⟨first, -, rfl, once, second, third, rfl, again, last⟩ := split
    have tail : DescribesAll [right] (third ++ []) := .cons last .nil
    rw [List.append_nil] at tail
    exact .concat (.cons once (.cons again tail))

theorem leads_concat_three {left middle right : Pattern κ}
    {first second third fourth : List υ → Prop} (leadsLeft : left.Leads first second)
    (leadsMiddle : middle.Leads second third) (leadsRight : right.Leads third fourth) :
    (Pattern.concat [left, middle, right]).Leads first fourth := by
  intro word rest described later
  obtain ⟨one, -, rfl, once, two, three, rfl, again, last⟩ := describes_concat_three.1 described
  simp only [List.append_assoc]
  exact leadsLeft _ _ once (leadsMiddle _ _ again (leadsRight _ _ last later))

end Leads

end Pattern

end TreePattern
