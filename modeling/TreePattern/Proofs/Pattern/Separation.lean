import TreePattern.Proofs.Pattern.Compilation
import TreePattern.Proofs.Pattern.Loops

/-!
# Loop-separated patterns compile exactly

Fusing mixes only loops that meet at one state. Where no two of them meet, the fused pattern reads
in front of any words what the pattern itself reads there, so a loop-separated pattern compiles to
an automaton of exactly its words. No pattern loses any.
-/

set_option autoImplicit false

namespace TreePattern

universe u v

variable {κ : Type u} {υ : Type v} [Matches κ υ]

namespace Pattern

section InFront

theorem in_front_congr {left right : Pattern κ}
    (same : ∀ word : List υ, left.Describes word ↔ right.Describes word) (after : List υ → Prop) :
    left.inFront after = right.inFront after := by
  funext word
  simp only [inFront, same]

theorem describes_congr {left right : Pattern κ}
    (same : ∀ after : List υ → Prop, left.inFront after = right.inFront after) (word : List υ) :
    left.Describes word ↔ right.Describes word := by
  rw [← in_front_empty_iff, same, in_front_empty_iff]

theorem in_front_of_nil_only {pattern : Pattern κ}
    (only : ∀ word : List υ, pattern.Describes word ↔ word = []) (after : List υ → Prop) :
    pattern.inFront after = after := by
  funext word
  simp only [inFront, only, eq_iff_iff]
  constructor
  · intro split
    obtain ⟨first, rest, rfl, rfl, later⟩ := split
    exact later
  · intro later
    exact ⟨[], word, rfl, rfl, later⟩

theorem describes_empty_iff (word : List υ) : (empty : Pattern κ).Describes word ↔ word = [] := by
  constructor
  · intro described
    cases described
    rfl
  · intro blank
    subst blank
    exact .empty

theorem describes_concat_nil_iff (word : List υ) :
    (concat [] : Pattern κ).Describes word ↔ word = [] := by
  constructor
  · intro described
    cases described with
    | concat parts =>
        cases parts
        rfl
  · intro blank
    subst blank
    exact .concat .nil

theorem describes_star_nil_iff {body : Pattern κ}
    (only : ∀ word : List υ, body.Describes word → word = []) (word : List υ) :
    (star body).Describes word ↔ word = [] := by
  constructor
  · intro described
    apply star_induction (motive := (· = [])) rfl _ described
    intro first rest once blank
    rw [only first once, blank]
    rfl
  · intro blank
    subst blank
    exact .starNil

theorem describes_star_choice_nil_iff (word : List υ) :
    (star (choice []) : Pattern κ).Describes word ↔ word = [] := by
  apply describes_star_nil_iff
  intro once described
  cases described with
  | choice member => exact absurd member List.not_mem_nil

theorem in_front_star_choice_nil (after : List υ → Prop) :
    (star (choice []) : Pattern κ).inFront after = after :=
  in_front_of_nil_only describes_star_choice_nil_iff after

theorem in_front_concat_cons (item : Pattern κ) (items : List (Pattern κ))
    (after : List υ → Prop) :
    (concat (item :: items)).inFront after = item.inFront ((concat items).inFront after) := by
  funext word
  rw [eq_iff_iff]
  constructor
  · intro split
    obtain ⟨all, last, rfl, described, later⟩ := split
    cases described with
    | concat parts =>
        obtain _ | ⟨once, others⟩ := parts
        exact ⟨_, _, List.append_assoc .., once, _, last, rfl, .concat others, later⟩
  · intro split
    obtain ⟨first, tail, rfl, once, rest, last, rfl, described, later⟩ := split
    cases described with
    | concat others =>
        exact ⟨first ++ rest, last, (List.append_assoc ..).symm, .concat (.cons once others), later⟩

theorem in_front_concat_nil (after : List υ → Prop) :
    (concat [] : Pattern κ).inFront after = after :=
  in_front_of_nil_only describes_concat_nil_iff after

theorem describes_choice_iff {items : List (Pattern κ)} {word : List υ} :
    (choice items).Describes word ↔ ∃ item ∈ items, item.Describes word := by
  constructor
  · intro described
    cases described with
    | choice member part => exact ⟨_, member, part⟩
  · intro described
    obtain ⟨item, member, part⟩ := described
    exact .choice member part

theorem describes_choice_one_iff (item : Pattern κ) (word : List υ) :
    (choice [item]).Describes word ↔ item.Describes word := by
  simp only [describes_choice_iff, List.mem_singleton, exists_eq_left]

theorem star_describes_of_body {left right : Pattern κ}
    (body : ∀ word : List υ, left.Describes word → right.Describes word) {word : List υ}
    (described : (star left).Describes word) : (star right).Describes word := by
  apply star_induction .starNil _ described
  intro first rest once again
  exact .starCons (body first once) again

theorem star_describes_congr {left right : Pattern κ}
    (same : ∀ word : List υ, left.Describes word ↔ right.Describes word) (word : List υ) :
    (star left).Describes word ↔ (star right).Describes word :=
  ⟨star_describes_of_body fun word => (same word).1,
    star_describes_of_body fun word => (same word).2⟩

end InFront

end Pattern

namespace Profile

def fronts : Profile κ → List (Pattern κ)
  | loop bodies => bodies
  | through front _ _ => front

def backs : Profile κ → List (Pattern κ)
  | loop bodies => bodies
  | through _ _ back => back

/-- Loops of one side only do not mix: what two profiles read one behind the other is what the first
reads in front of the second. -/
theorem in_front_follow {first second : Profile κ} (apart : first.backs = [] ∨ second.fronts = [])
    (after : List υ → Prop) :
    (first.follow second).pattern.inFront after =
      first.pattern.inFront (second.pattern.inFront after) := by
  rcases apart with noBacks | noFronts
  · cases first <;> subst noBacks <;> cases second <;>
      simp only [follow, pattern, Pattern.in_front_concat_cons, Pattern.in_front_concat_nil,
        Pattern.in_front_star_choice_nil, List.nil_append]
  · cases second <;> subst noFronts <;> cases first <;>
      simp only [follow, pattern, Pattern.in_front_concat_cons, Pattern.in_front_concat_nil,
        Pattern.in_front_star_choice_nil, List.append_nil]

theorem follow_loop_nil_left (second : Profile κ) : (loop []).follow second = second := by
  cases second <;> rfl

theorem follow_loop_nil_right (first : Profile κ) : first.follow (loop []) = first := by
  cases first <;> simp only [follow, List.append_nil]

/-- The ends are apart, and no loop runs around the beginning. -/
def OpensPlain (profile : Profile κ) : Prop := ∃ core back, profile = through [] core back

def ClosesPlain (profile : Profile κ) : Prop := ∃ front core, profile = through front core []

theorem OpensPlain.follow {first : Profile κ} (opens : first.OpensPlain) (second : Profile κ) :
    (first.follow second).OpensPlain := by
  obtain ⟨core, back, rfl⟩ := opens
  cases second with
  | loop bodies => exact ⟨core, back ++ bodies, rfl⟩
  | through front core' back' => exact ⟨_, back', rfl⟩

theorem ClosesPlain.behind {second : Profile κ} (closes : second.ClosesPlain) (first : Profile κ) :
    (first.follow second).ClosesPlain := by
  obtain ⟨front, core, rfl⟩ := closes
  cases first with
  | loop bodies => exact ⟨bodies ++ front, core, rfl⟩
  | through front' core' back => exact ⟨front', _, rfl⟩

theorem OpensPlain.fronts_eq_nil {profile : Profile κ} (opens : profile.OpensPlain) :
    profile.fronts = [] := by
  obtain ⟨core, back, rfl⟩ := opens
  rfl

theorem ClosesPlain.backs_eq_nil {profile : Profile κ} (closes : profile.ClosesPlain) :
    profile.backs = [] := by
  obtain ⟨front, core, rfl⟩ := closes
  rfl

end Profile

namespace Pattern

section Ends

theorem profile_sequence_blank {items : List (Pattern κ)}
    (holds : ∀ item ∈ items, item.isBlank = true → item.profile = .loop [])
    (blank : areBlank items = true) : profileSequence items = .loop [] := by
  rw [are_blank_iff] at blank
  induction items with
  | nil => rfl
  | cons item rest induction =>
      rw [List.forall_mem_cons] at holds blank
      rw [profileSequence, holds.1 blank.1, induction holds.2 blank.2]
      rfl

theorem profile_blank (pattern : Pattern κ) :
    pattern.isBlank = true → pattern.profile = .loop [] := by
  induction pattern using item_induction with
  | literal test => exact fun impossible => absurd impossible Bool.false_ne_true
  | concat items holds => exact profile_sequence_blank holds
  | choice items => exact fun impossible => absurd impossible Bool.false_ne_true
  | star body => exact fun impossible => absurd impossible Bool.false_ne_true
  | empty => exact fun _ => rfl

theorem sequence_opens_plain {items : List (Pattern κ)}
    (holds : ∀ item ∈ items, item.isBlank = false → item.beginsWithLoop = false →
      item.profile.OpensPlain)
    (solid : areBlank items = false) (plain : sequenceBeginsWithLoop items = false) :
    (profileSequence items).OpensPlain := by
  induction items with
  | nil => cases solid
  | cons item rest induction =>
      rw [List.forall_mem_cons] at holds
      rw [profileSequence]
      cases blank : item.isBlank with
      | true =>
          rw [areBlank, blank, Bool.true_and] at solid
          rw [sequence_begins_blank blank] at plain
          rw [profile_blank item blank, Profile.follow_loop_nil_left]
          exact induction holds.2 solid plain
      | false =>
          rw [sequence_begins_solid blank] at plain
          exact (holds.1 blank plain).follow _

theorem opens_plain (pattern : Pattern κ) :
    pattern.isBlank = false → pattern.beginsWithLoop = false → pattern.profile.OpensPlain := by
  induction pattern using item_induction with
  | literal test => exact fun _ _ => ⟨_, [], rfl⟩
  | concat items holds => exact sequence_opens_plain holds
  | choice items => exact fun _ _ => ⟨_, [], rfl⟩
  | star body => exact fun _ loops => absurd loops.symm Bool.false_ne_true
  | empty => exact fun solid => absurd solid.symm Bool.false_ne_true

theorem sequence_closes_plain {items : List (Pattern κ)}
    (holds : ∀ item ∈ items, item.isBlank = false → item.endsWithLoop = false →
      item.profile.ClosesPlain)
    (solid : areBlank items = false) (plain : sequenceEndsWithLoop items = false) :
    (profileSequence items).ClosesPlain := by
  induction items with
  | nil => cases solid
  | cons item rest induction =>
      rw [List.forall_mem_cons] at holds
      rw [profileSequence]
      rw [areBlank] at solid
      rw [sequenceEndsWithLoop] at plain
      cases behind : areBlank rest with
      | true =>
          rw [behind, Bool.and_true] at solid
          rw [behind, if_pos rfl, solid, Bool.not_false, Bool.true_and] at plain
          rw [profile_sequence_blank (fun other _ => profile_blank other) behind,
            Profile.follow_loop_nil_right]
          exact holds.1 solid plain
      | false =>
          rw [behind] at plain
          exact (induction holds.2 behind plain).behind _

theorem closes_plain (pattern : Pattern κ) :
    pattern.isBlank = false → pattern.endsWithLoop = false → pattern.profile.ClosesPlain := by
  induction pattern using item_induction with
  | literal test => exact fun _ _ => ⟨[], _, rfl⟩
  | concat items holds => exact sequence_closes_plain holds
  | choice items => exact fun _ _ => ⟨[], _, rfl⟩
  | star body => exact fun _ loops => absurd loops.symm Bool.false_ne_true
  | empty => exact fun solid => absurd solid.symm Bool.false_ne_true

theorem sequence_fronts_eq_nil {items : List (Pattern κ)}
    (plain : sequenceBeginsWithLoop items = false) : (profileSequence items).fronts = [] := by
  cases blank : areBlank items with
  | true =>
      rw [profile_sequence_blank (fun item _ => profile_blank item) blank]
      rfl
  | false => exact (sequence_opens_plain (fun item _ => opens_plain item) blank plain).fronts_eq_nil

theorem backs_eq_nil {pattern : Pattern κ} (plain : pattern.endsWithLoop = false) :
    pattern.profile.backs = [] := by
  cases blank : pattern.isBlank with
  | true =>
      rw [profile_blank pattern blank]
      rfl
  | false => exact (closes_plain pattern blank plain).backs_eq_nil

theorem backs_or_fronts_eq_nil {item : Pattern κ} {rest : List (Pattern κ)}
    (apart : loopsApart ((item :: rest).filter fun other => !other.isBlank) = true) :
    item.profile.backs = [] ∨ (profileSequence rest).fronts = [] := by
  cases blank : item.isBlank with
  | true =>
      rw [profile_blank item blank]
      exact Or.inl rfl
  | false =>
      rw [List.filter_cons_of_pos (by simp [blank])] at apart
      cases ends : item.endsWithLoop with
      | true => exact Or.inr (sequence_fronts_eq_nil (begins_of_loops_apart apart ends))
      | false => exact Or.inl (backs_eq_nil ends)

end Ends

section Reading

theorem loops_apart_of_cons {item : Pattern κ} {rest : List (Pattern κ)}
    (apart : loopsApart ((item :: rest).filter fun other => !other.isBlank) = true) :
    loopsApart (rest.filter fun other => !other.isBlank) = true := by
  rw [List.filter_cons] at apart
  split at apart
  · exact loops_apart_tail apart
  · exact apart

theorem sequence_in_front_fused {items : List (Pattern κ)}
    (holds : ∀ item ∈ items, ∀ after : List υ → Prop,
      item.fused.inFront after = item.inFront after)
    (apart : loopsApart (items.filter fun item => !item.isBlank) = true)
    (after : List υ → Prop) :
    (profileSequence items).pattern.inFront after = (concat items).inFront after := by
  induction items with
  | nil =>
      rw [in_front_concat_nil]
      exact in_front_star_choice_nil after
  | cons item rest induction =>
      rw [List.forall_mem_cons] at holds
      have others := induction holds.2 (loops_apart_of_cons apart)
      rw [profileSequence, Profile.in_front_follow (backs_or_fronts_eq_nil apart), others,
        in_front_concat_cons]
      exact holds.1 _

theorem star_describes_joined_iff {body : Pattern κ} (begins : body.beginsWithLoop = false)
    (ends : body.endsWithLoop = false)
    (holds : ∀ word : List υ, body.fused.Describes word ↔ body.Describes word) (word : List υ) :
    body.profile.joined.pattern.Describes word ↔ (star body).Describes word := by
  cases blank : body.isBlank with
  | true =>
      have shape := profile_blank body blank
      have only : ∀ once : List υ, body.Describes once → once = [] := by
        intro once described
        rw [← holds, fused, shape] at described
        exact (describes_star_choice_nil_iff once).1 described
      rw [shape, describes_star_nil_iff only]
      exact describes_star_choice_nil_iff word
  | false =>
      obtain ⟨core, back, shape⟩ := opens_plain body blank begins
      have plain := backs_eq_nil ends
      rw [shape] at plain ⊢
      have noBacks : back = [] := plain
      subst noBacks
      apply star_describes_congr
      intro once
      rw [List.nil_append, describes_choice_one_iff, ← holds, fused, shape]
      apply describes_congr
      intro after
      simp only [Profile.pattern, in_front_concat_cons, in_front_concat_nil,
        in_front_star_choice_nil]

/-- In a loop-separated pattern fusing adds no words, whatever follows. -/
theorem in_front_fused (pattern : Pattern κ) : pattern.isLoopSeparated = true →
    ∀ after : List υ → Prop, pattern.fused.inFront after = pattern.inFront after := by
  induction pattern using item_induction with
  | literal test =>
      intro separated after
      simp only [fused, profile, Profile.pattern, in_front_concat_cons, in_front_concat_nil,
        in_front_star_choice_nil]
  | concat items holds =>
      intro separated after
      rw [concat_loop_separated_iff] at separated
      exact sequence_in_front_fused (fun item member => holds item member (separated.1 item member))
        separated.2 after
  | choice items holds =>
      intro separated after
      rw [choice_loop_separated_iff] at separated
      simp only [fused, profile, Profile.pattern, in_front_concat_cons, in_front_concat_nil,
        in_front_star_choice_nil]
      apply in_front_congr
      intro word
      rw [describes_choice_iff, describes_choice_iff]
      constructor
      · intro described
        obtain ⟨other, member, part⟩ := described
        obtain ⟨item, inItems, rfl⟩ := (mem_fused_items ..).1 member
        have same := holds item inItems (separated item inItems)
        exact ⟨item, inItems, (describes_congr same word).1 part⟩
      · intro described
        obtain ⟨item, inItems, part⟩ := described
        exact ⟨item.fused, (mem_fused_items ..).2 ⟨item, inItems, rfl⟩,
          fused_describes_of_describes part⟩
  | star body holds =>
      intro separated after
      rw [star_loop_separated_iff] at separated
      obtain ⟨inner, begins, ends⟩ := separated
      apply in_front_congr
      exact star_describes_joined_iff begins ends (describes_congr (holds inner))
  | empty =>
      intro separated after
      rw [in_front_of_nil_only describes_empty_iff]
      exact in_front_star_choice_nil after

end Reading

variable [BEq κ] [LawfulTests κ υ]

theorem accepts_iff_fused_describes {pattern : Pattern κ} {eliminateEpsilon : Bool}
    {automaton : Automaton κ} (compiled : pattern.compile eliminateEpsilon = .ok automaton)
    (word : List υ) : automaton.accepts word = true ↔ pattern.fused.Describes word := by
  rw [Automaton.accepts_iff_accepting_path]
  exact compile_has_accepting_path_iff compiled word

/-- With either setting, a compiled pattern accepts all words of the pattern, and if the pattern is
loop-separated, it accepts no others. -/
theorem compile_exact_if_loop_separated (pattern : Pattern κ) (eliminateEpsilon : Bool)
    (automaton : Automaton κ) (compiled : pattern.compile eliminateEpsilon = .ok automaton) :
    (∀ word : List υ, pattern.Describes word → automaton.accepts word = true) ∧
      (pattern.isLoopSeparated = true →
        ∀ word : List υ, automaton.accepts word = true → pattern.Describes word) := by
  have language (word : List υ) := accepts_iff_fused_describes compiled word
  constructor
  · intro word described
    exact (language word).2 (fused_describes_of_describes described)
  · intro separated word accepted
    exact (describes_congr (in_front_fused pattern separated) word).1 ((language word).1 accepted)

def bracketed : Pattern (Literal Char) :=
  .concat [.literal ⟨'('⟩, .choice [.star (.literal ⟨'a'⟩), .empty], .star (.literal ⟨'c'⟩),
    .concat [], .literal ⟨')'⟩]

def bracketedReduced : Automaton (Literal Char) where
  start := 0
  accepting := .ofList [4]
  table := ⟨#[[⟨.consume ⟨'('⟩, 1⟩],
    [⟨.consume ⟨'c'⟩, 2⟩, ⟨.consume ⟨'a'⟩, 3⟩, ⟨.consume ⟨')'⟩, 4⟩],
    [⟨.consume ⟨'c'⟩, 2⟩, ⟨.consume ⟨')'⟩, 4⟩],
    [⟨.consume ⟨'c'⟩, 2⟩, ⟨.consume ⟨'a'⟩, 3⟩, ⟨.consume ⟨')'⟩, 4⟩],
    []]⟩

set_option maxRecDepth 2000 in
theorem compile_exact_if_loop_separated_bracketed :
    bracketed.compile true = .ok bracketedReduced ∧ bracketed.isLoopSeparated = true ∧
      bracketed.Describes ['(', 'a', 'a', 'c', ')'] ∧
      ¬ bracketed.Describes ['(', 'c', 'a', ')'] := by
  have compiled : bracketed.compile true = .ok bracketedReduced := rfl
  have separated : bracketed.isLoopSeparated = true := rfl
  obtain ⟨keeps, addsNone⟩ :=
    compile_exact_if_loop_separated (υ := Char) bracketed true bracketedReduced compiled
  refine ⟨compiled, separated, ?_, ?_⟩
  · exact addsNone separated _ (by decide +kernel)
  · intro described
    have refused : bracketedReduced.accepts ['(', 'c', 'a', ')'] = false := by decide +kernel
    rw [keeps _ described] at refused
    cases refused

end Pattern

end TreePattern
