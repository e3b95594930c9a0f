import TreePattern.Proofs.Automaton.SubsetLanguage
import TreePattern.Proofs.Pattern.Labelling

/-!
# What compiled patterns accept

A compiled pattern accepts exactly the words of its fused pattern, whether or not epsilon
transitions are eliminated. These are all words of the pattern, and no others as long as fusing adds
none; where repetitions touch, it may.
-/

set_option autoImplicit false

namespace TreePattern

universe u v

namespace Pattern

variable {κ : Type u} {υ : Type v}

def seed : AutomatonBuilder κ := (AutomatonBuilder.empty.newState true false).2

theorem transitions_seed (state : Nat) :
    (seed : AutomatonBuilder κ).table.transitions state = [] :=
  TransitionTable.transitions_ensure_state ..

theorem handed_seed : (seed : AutomatonBuilder κ).Handed := by
  intro state transition member
  rw [transitions_seed] at member
  exact absurd member List.not_mem_nil

theorem zero_lt_next_state_seed : 0 < (seed : AutomatonBuilder κ).nextState := Nat.zero_lt_one

/-- The automaton that is built of the wired pattern. -/
def wiring (pattern : Pattern κ) : Automaton κ where
  start := 0
  accepting := pattern.wired.accepting
  table := pattern.wired.table

theorem wiring_eq (pattern : Pattern κ) :
    pattern.wiring = ⟨0, (pattern.inject 0 seed).2.accepting.insert (pattern.inject 0 seed).1,
      (pattern.inject 0 seed).2.table⟩ := rfl

/-- Wiring designates no other start, so building what was wired cannot fail. -/
theorem build_wired (pattern : Pattern κ) : pattern.wired.build = .ok pattern.wiring := by
  have start : pattern.wired.start? = some 0 :=
    (inject_grows pattern 0 seed zero_lt_next_state_seed).1.sameStart
  simp only [AutomatonBuilder.build, start, wiring]

theorem compile_eq [BEq κ] (pattern : Pattern κ) (eliminateEpsilon : Bool) :
    pattern.compile eliminateEpsilon =
      if eliminateEpsilon then pattern.wiring.toDfa else .ok pattern.wiring := by
  simp only [compile, build_wired]

theorem wiring_accepting_iff (pattern : Pattern κ) (state : Nat) :
    pattern.wiring.isAccepting state = true ↔ state = (pattern.inject 0 seed).1 := by
  have unchanged := (inject_grows pattern 0 seed zero_lt_next_state_seed).1.sameAccepting
  have none : (seed : AutomatonBuilder κ).accepting = .empty := rfl
  rw [wiring_eq, Automaton.isAccepting, ← StateSet.mem_def, StateSet.mem_insert, unchanged, none]
  exact or_iff_left (StateSet.not_mem_empty state)

section Words

variable [Matches κ υ]

theorem wiring_has_accepting_path_iff (pattern : Pattern κ) (word : List υ) :
    pattern.wiring.HasAcceptingPath word ↔ pattern.fused.Describes word := by
  constructor
  · intro accepting
    obtain ⟨target, path, accepts⟩ := accepting
    rw [wiring_accepting_iff] at accepts
    subst accepts
    obtain ⟨before, after, fits, above, below⟩ := pattern.profile.exists_fits (υ := υ) (· = [])
    have respects : Respects (fun _ => before) (seed : AutomatonBuilder κ).table := by
      intro state transition member
      rw [transitions_seed] at member
      exact absurd member List.not_mem_nil
    obtain ⟨extended, old, final, allRespect⟩ := inject_labels pattern 0 seed _ after
      zero_lt_next_state_seed handed_seed respects fits
    have wired : Respects extended pattern.wiring.table := allRespect
    have allowed := wired.word_of_path path (final ▸ above [] rfl)
    have first : extended pattern.wiring.start = before := old 0 zero_lt_next_state_seed
    rw [first] at allowed
    exact in_front_empty_iff.1 (below word allowed)
  · intro described
    let stop := (pattern.inject 0 seed).1
    have fits := fits_paths (υ := υ) pattern pattern.wiring stop 0 seed (.refl _)
    have path := fits.leads word [] described (.refl stop)
    rw [List.append_nil] at path
    exact ⟨stop, path, (wiring_accepting_iff pattern stop).2 rfl⟩

variable [BEq κ] [LawfulTests κ υ]

theorem compile_has_accepting_path_iff {pattern : Pattern κ} {eliminateEpsilon : Bool}
    {automaton : Automaton κ} (compiled : pattern.compile eliminateEpsilon = .ok automaton)
    (word : List υ) :
    automaton.HasAcceptingPath word ↔ pattern.fused.Describes word := by
  rw [← wiring_has_accepting_path_iff]
  rw [compile_eq] at compiled
  split at compiled
  · obtain ⟨found, subset⟩ := Automaton.subset_of_to_dfa compiled
    exact subset.has_accepting_path_iff word
  · cases compiled
    exact Iff.rfl

/-- Compiling is exact for a pattern and a word just if the fused pattern does not describe the
word, or the pattern describes it too. -/
theorem compile_exact_iff (pattern : Pattern κ) (eliminateEpsilon : Bool)
    (automaton : Automaton κ) (compiled : pattern.compile eliminateEpsilon = .ok automaton)
    (word : List υ) :
    (automaton.accepts word = true ↔ pattern.fused.Describes word) ∧
      ((automaton.accepts word = true ↔ pattern.Describes word) ↔
        (pattern.fused.Describes word → pattern.Describes word)) := by
  have language : automaton.accepts word = true ↔ pattern.fused.Describes word := by
    rw [Automaton.accepts_iff_accepting_path]
    exact compile_has_accepting_path_iff compiled word
  refine ⟨language, ?_⟩
  rw [language]
  constructor
  · intro exact_ described
    exact exact_.1 described
  · intro noMore
    exact ⟨noMore, fused_describes_of_describes⟩

end Words

theorem passes_of_mem_star_literal [Matches κ υ] {test : κ} {word : List υ}
    (described : (Pattern.star (.literal test)).Describes word) :
    ∀ value ∈ word, Matches.passes test value = true := by
  let passing := fun word : List υ => ∀ value ∈ word, Matches.passes test value = true
  have once : (Pattern.literal test).Leads passing passing := by
    intro first rest single later
    cases single with
    | literal passes => exact List.forall_mem_cons.2 ⟨passes, later⟩
  have all := once.star word [] described fun _ member => absurd member List.not_mem_nil
  rwa [List.append_nil] at all

def touchingLoops : Pattern (Literal Char) :=
  .concat [.star (.literal ⟨'a'⟩), .star (.literal ⟨'b'⟩)]

def touchingLoopsReduced : Automaton (Literal Char) where
  start := 0
  accepting := .ofList [0]
  table := ⟨#[[⟨.consume ⟨'a'⟩, 0⟩, ⟨.consume ⟨'b'⟩, 0⟩]]⟩

theorem compile_exact_iff_touching_loops :
    touchingLoops.compile true = .ok touchingLoopsReduced ∧
      (touchingLoopsReduced.accepts ['b', 'a'] = true ↔ touchingLoops.fused.Describes ['b', 'a']) ∧
        ((touchingLoopsReduced.accepts ['b', 'a'] = true ↔ touchingLoops.Describes ['b', 'a']) ↔
          (touchingLoops.fused.Describes ['b', 'a'] → touchingLoops.Describes ['b', 'a'])) :=
  ⟨rfl, compile_exact_iff touchingLoops true touchingLoopsReduced rfl ['b', 'a']⟩

/-- The repetitions share their states, so their words mix: the second may come first. -/
theorem touching_loops_accept_undescribed_word :
    (∀ eliminateEpsilon, ∃ automaton, touchingLoops.compile eliminateEpsilon = .ok automaton ∧
      automaton.accepts ['b', 'a'] = true) ∧
        ¬ touchingLoops.Describes ['b', 'a'] := by
  constructor
  · intro eliminateEpsilon
    cases eliminateEpsilon with
    | true => exact ⟨touchingLoopsReduced, rfl, by decide +kernel⟩
    | false => exact ⟨touchingLoops.wiring, rfl, by decide +kernel⟩
  · intro described
    obtain ⟨left, right, whole, first, second⟩ := describes_concat_two.1 described
    have leftPasses := passes_of_mem_star_literal first
    have rightPasses := passes_of_mem_star_literal second
    cases left with
    | nil =>
        rw [List.nil_append] at whole
        rw [← whole] at rightPasses
        exact absurd (rightPasses 'a' (by simp)) (by decide)
    | cons value others =>
        rw [List.cons_append, List.cons.injEq] at whole
        rw [← whole.1] at leftPasses
        exact absurd (leftPasses 'b' (by simp)) (by decide)

end Pattern

end TreePattern
