import TreePattern.Proofs.Pattern.Separation

/-!
# Compiled choices are unions

Each item of a choice has entry and end states of its own, so no path leads from one item into
another, whatever loops they contain. The automaton of a choice accepts exactly what the automata of
the items accept, and neither the order of the items nor their number of copies matters.
-/

set_option autoImplicit false

namespace TreePattern

universe u v

namespace Pattern

variable {κ : Type u} {υ : Type v} [Matches κ υ]

theorem fused_choice_describes_iff {items : List (Pattern κ)} (word : List υ) :
    (choice items).fused.Describes word ↔ ∃ item ∈ items, item.fused.Describes word := by
  have plain : (choice items).fused.Describes word ↔
      (choice (fusedItems items)).Describes word := by
    apply describes_congr
    intro after
    simp only [fused, profile, Profile.pattern, in_front_concat_cons, in_front_concat_nil,
      in_front_star_choice_nil]
  rw [plain, describes_choice_iff]
  simp only [mem_fused_items, exists_exists_and_eq_and]

theorem refused_of_parts {whole : Automaton κ} {parts : List (Automaton κ)} {word : List υ}
    (union : whole.accepts word = true ↔ ∃ part ∈ parts, part.accepts word = true)
    (refused : ∀ part ∈ parts, part.accepts word = false) : whole.accepts word = false := by
  rw [Bool.eq_false_iff]
  intro accepted
  obtain ⟨part, member, accepts⟩ := union.1 accepted
  rw [refused part member] at accepts
  cases accepts

variable [BEq κ] [LawfulTests κ υ]

/-- With either setting, the automaton of a choice accepts a word just if the automaton of one of
the items does, and choices of the same items accept the same words. -/
theorem choice_accepts_union {items : List (Pattern κ)} {eliminateEpsilon : Bool}
    {whole : Automaton κ} (compiled : (choice items).compile eliminateEpsilon = .ok whole) :
    (∀ parts : List (Automaton κ),
      items.map (·.compile eliminateEpsilon) = parts.map .ok →
        ∀ word : List υ, whole.accepts word = true ↔ ∃ part ∈ parts, part.accepts word = true) ∧
      ∀ others : List (Pattern κ), (∀ item, item ∈ others ↔ item ∈ items) →
        ∀ other, (choice others).compile eliminateEpsilon = .ok other →
          ∀ word : List υ, other.accepts word = whole.accepts word := by
  constructor
  · intro parts compiledParts word
    rw [accepts_iff_fused_describes compiled, fused_choice_describes_iff]
    constructor
    · intro described
      obtain ⟨item, inItems, part⟩ := described
      have listed : item.compile eliminateEpsilon ∈ items.map (·.compile eliminateEpsilon) :=
        List.mem_map_of_mem inItems
      rw [compiledParts] at listed
      obtain ⟨automaton, inParts, same⟩ := List.mem_map.1 listed
      exact ⟨automaton, inParts, (accepts_iff_fused_describes same.symm word).2 part⟩
    · intro accepted
      obtain ⟨automaton, inParts, accepts⟩ := accepted
      have listed : (.ok automaton : Except Failure (Automaton κ)) ∈ parts.map .ok :=
        List.mem_map_of_mem inParts
      rw [← compiledParts] at listed
      obtain ⟨item, inItems, same⟩ := List.mem_map.1 listed
      exact ⟨item, inItems, (accepts_iff_fused_describes same word).1 accepts⟩
  · intro others same other compiledOther word
    rw [Bool.eq_iff_iff, accepts_iff_fused_describes compiled,
      accepts_iff_fused_describes compiledOther]
    simp only [fused_choice_describes_iff, same]

/-- Two repetitions that share their states, and a repetition of a repetition. -/
def loopAlternatives : List (Pattern (Literal Char)) :=
  [.concat [.star (.literal ⟨'a'⟩), .star (.literal ⟨'b'⟩)], .star (.star (.literal ⟨'c'⟩))]

def loopAlternativesReduced : Automaton (Literal Char) where
  start := 0
  accepting := .ofList [0, 1, 2]
  table := ⟨#[[⟨.consume ⟨'a'⟩, 1⟩, ⟨.consume ⟨'b'⟩, 1⟩, ⟨.consume ⟨'c'⟩, 2⟩],
    [⟨.consume ⟨'a'⟩, 1⟩, ⟨.consume ⟨'b'⟩, 1⟩],
    [⟨.consume ⟨'c'⟩, 2⟩]]⟩

def reducedAlternatives : List (Automaton (Literal Char)) :=
  [touchingLoopsReduced,
    { start := 0, accepting := .ofList [0], table := ⟨#[[⟨.consume ⟨'c'⟩, 0⟩]]⟩ }]

set_option maxRecDepth 2000 in
/-- With either setting, each alternative mixes its own loops only. -/
theorem choice_accepts_union_of_loops :
    (choice loopAlternatives).compile false = .ok (choice loopAlternatives).wiring ∧
      loopAlternatives.map (·.compile false) = (loopAlternatives.map wiring).map .ok ∧
      (choice loopAlternatives).wiring.accepts ['b', 'a'] = true ∧
      (choice loopAlternatives).wiring.accepts ['a', 'c'] = false ∧
      (choice loopAlternatives.reverse).wiring.accepts ['b', 'a'] = true ∧
      (choice loopAlternatives).compile true = .ok loopAlternativesReduced ∧
      loopAlternatives.map (·.compile true) = reducedAlternatives.map .ok ∧
      loopAlternativesReduced.accepts ['b', 'a'] = true ∧
      loopAlternativesReduced.accepts ['a', 'c'] = false := by
  have compiled : (choice loopAlternatives).compile false =
      .ok (choice loopAlternatives).wiring := rfl
  have compiledParts : loopAlternatives.map (·.compile false) =
      (loopAlternatives.map wiring).map .ok := rfl
  have reduced : (choice loopAlternatives).compile true = .ok loopAlternativesReduced := rfl
  have reducedParts : loopAlternatives.map (·.compile true) = reducedAlternatives.map .ok := rfl
  obtain ⟨union, reordered⟩ := choice_accepts_union (υ := Char) compiled
  obtain ⟨reducedUnion, -⟩ := choice_accepts_union (υ := Char) reduced
  have mixed : (choice loopAlternatives).wiring.accepts ['b', 'a'] = true :=
    (union _ compiledParts ['b', 'a']).2 ⟨_, List.mem_cons_self, by decide +kernel⟩
  refine ⟨compiled, compiledParts, mixed, ?_, ?_, reduced, reducedParts, ?_, ?_⟩
  · exact refused_of_parts (union _ compiledParts ['a', 'c']) (by decide +kernel)
  · have same := reordered loopAlternatives.reverse (fun item => List.mem_reverse)
      (choice loopAlternatives.reverse).wiring rfl ['b', 'a']
    rw [same, mixed]
  · exact (reducedUnion _ reducedParts ['b', 'a']).2 ⟨_, List.mem_cons_self, by decide +kernel⟩
  · exact refused_of_parts (reducedUnion _ reducedParts ['a', 'c']) (by decide +kernel)

end Pattern

end TreePattern
