import Mathlib.Logic.Function.Basic
import TreePattern.Automaton.Path
import TreePattern.Proofs.Pattern.Fits
import TreePattern.Proofs.Pattern.Growth

/-!
# Labelling the states of a wired pattern

Each state is labelled with words that may still follow. If no transition leads from a longer word
to one that its destination does not allow, then paths read only words of their first label. Labels
that fit the profile of a pattern extend to all states of its wiring, and conversely the words that
an automaton reads on the way to some state fit every pattern wired in it.
-/

set_option autoImplicit false

namespace TreePattern

universe u v

variable {κ : Type u} {υ : Type v} [Matches κ υ]

/-- What may follow the destination, behind what the condition consumes, may follow the source. -/
def Condition.Carries : Condition κ → (List υ → Prop) → (List υ → Prop) → Prop
  | .epsilon, before, after => ∀ word, after word → before word
  | .consume test, before, after =>
      ∀ value word, Matches.passes test value = true → after word → before (value :: word)

def Respects (label : Nat → List υ → Prop) (table : TransitionTable κ) : Prop :=
  ∀ state, ∀ transition ∈ table.transitions state,
    transition.condition.Carries (label state) (label transition.destination)

theorem Respects.add {label : Nat → List υ → Prop} {table : TransitionTable κ}
    (respects : Respects label table) {source destination : Nat} {condition : Condition κ}
    (carries : condition.Carries (label source) (label destination)) :
    Respects label (table.add source condition destination) := by
  intro state transition member
  rw [TransitionTable.transitions_add] at member
  split at member
  · rename_i same
    rcases List.mem_append.1 member with old | new
    · exact respects state transition old
    · rw [List.mem_singleton] at new
      subst new same
      exact carries
  · exact respects state transition member

theorem Respects.ensure_state {label : Nat → List υ → Prop} {table : TransitionTable κ}
    (respects : Respects label table) (state : Nat) :
    Respects label (table.ensureState state) := by
  intro other transition member
  rw [TransitionTable.transitions_ensure_state] at member
  exact respects other transition member

theorem Respects.exists_with_state {label : Nat → List υ → Prop} {builder : AutomatonBuilder κ}
    (respects : Respects label builder.table) (handed : builder.Handed) (words : List υ → Prop) :
    ∃ extended : Nat → List υ → Prop,
      (∀ state, state < builder.nextState → extended state = label state) ∧
        extended builder.nextState = words ∧ Respects extended builder.withState.table := by
  refine ⟨Function.update label builder.nextState words, ?_, Function.update_self .., ?_⟩
  · exact fun state old => Function.update_of_ne (Nat.ne_of_lt old) ..
  · apply Respects.ensure_state
    intro source transition member
    obtain ⟨sourceBound, targetBound⟩ := handed source transition member
    rw [Function.update_of_ne (Nat.ne_of_lt sourceBound),
      Function.update_of_ne (Nat.ne_of_lt targetBound)]
    exact respects source transition member

theorem Respects.word_of_path {label : Nat → List υ → Prop} {automaton : Automaton κ}
    (respects : Respects label automaton.table) {source target : Nat} {word : List υ}
    (path : automaton.Path source word target) (final : label target []) : label source word := by
  induction path with
  | refl => exact final
  | epsilon leaving silent _ induction =>
      have carries := respects _ _ leaving
      rw [silent] at carries
      exact carries _ (induction final)
  | @value source _ transition value word leaving matching _ induction =>
      have carries := respects _ _ leaving
      cases condition : transition.condition with
      | epsilon => simp [condition] at matching
      | consume test =>
          rw [condition] at carries matching
          exact carries value word matching (induction final)

namespace Pattern

open AutomatonBuilder

def ExtendsLabels (pattern : Pattern κ) (υ : Type v) [Matches κ υ] : Prop :=
  ∀ (start : Nat) (builder : AutomatonBuilder κ) (label : Nat → List υ → Prop)
    (after : List υ → Prop), start < builder.nextState → builder.Handed →
    Respects label builder.table → pattern.profile.Fits (label start) after →
    ∃ extended : Nat → List υ → Prop,
      (∀ state, state < builder.nextState → extended state = label state) ∧
        extended (pattern.inject start builder).1 = after ∧
          Respects extended (pattern.inject start builder).2.table

theorem inject_sequence_labels {items : List (Pattern κ)}
    (holds : ∀ item ∈ items, item.ExtendsLabels υ) {start : Nat} {builder : AutomatonBuilder κ}
    {label : Nat → List υ → Prop} {after : List υ → Prop} (bound : start < builder.nextState)
    (handed : builder.Handed) (respects : Respects label builder.table)
    (fits : (profileSequence items).Fits (label start) after) :
    ∃ extended : Nat → List υ → Prop,
      (∀ state, state < builder.nextState → extended state = label state) ∧
        extended (injectSequence items start builder).1 = after ∧
          Respects extended (injectSequence items start builder).2.table := by
  induction items generalizing start builder label with
  | nil =>
      rw [inject_sequence_nil]
      exact ⟨label, fun _ _ => rfl, fits.1, respects⟩
  | cons item items induction =>
      rw [inject_sequence_cons]
      obtain ⟨middle, itemFits, restFits⟩ := fits.of_follow
      obtain ⟨grows, ends⟩ := inject_grows item start builder bound
      obtain ⟨first, firstOld, firstEnd, firstRespects⟩ :=
        holds item (List.mem_cons_self ..) start builder label middle bound handed respects itemFits
      rw [← firstEnd] at restFits
      obtain ⟨second, secondOld, secondEnd, secondRespects⟩ := induction
        (fun other member => holds other (List.mem_cons_of_mem item member))
        (ends.lt bound grows.next) (grows.handed bound handed) firstRespects restFits
      refine ⟨second, ?_, secondEnd, secondRespects⟩
      intro state old
      rw [secondOld state (Nat.lt_of_lt_of_le old grows.next), firstOld state old]

theorem open_branch_labels {label : Nat → List υ → Prop} {builder : AutomatonBuilder κ}
    (respects : Respects label builder.table) (handed : builder.Handed) {start : Nat}
    (bound : start < builder.nextState) {entry : List υ → Prop}
    (below : ∀ word, entry word → label start word) :
    ∃ extended : Nat → List υ → Prop,
      (∀ state, state < builder.nextState → extended state = label state) ∧
        extended builder.nextState = entry ∧
          Respects extended (openBranch builder start).table := by
  obtain ⟨extended, old, new, extends_⟩ := respects.exists_with_state handed entry
  refine ⟨extended, old, new, extends_.add ?_⟩
  rw [old start bound, new]
  exact below

/-- Wiring an item as a branch is in order if the label behind it is allowed behind the item and
the label in front of the item is allowed in front of the branch. -/
theorem inject_branch_labels {item : Pattern κ} (holds : item.ExtendsLabels υ) {start stop : Nat}
    {builder : AutomatonBuilder κ} {label : Nat → List υ → Prop}
    (bound : start < builder.nextState) (stopBound : stop < builder.nextState)
    (handed : builder.Handed) (respects : Respects label builder.table)
    {entry exit : List υ → Prop} (fits : item.profile.Fits entry exit)
    (above : ∀ word, label stop word → exit word) (below : ∀ word, entry word → label start word) :
    ∃ extended : Nat → List υ → Prop,
      (∀ state, state < builder.nextState → extended state = label state) ∧
        Respects extended (item.injectBranch start stop builder).table := by
  have isNew := lt_next_state_open_branch builder start
  have openedHanded := (open_branch_grows (Grows.refl builder start)).1.handed bound handed
  obtain ⟨entered, enteredOld, enteredNew, enteredRespects⟩ :=
    open_branch_labels respects handed bound below
  rw [← enteredNew] at fits
  obtain ⟨extended, old, final, wiredRespects⟩ := holds builder.nextState
    (openBranch builder start) entered exit isNew openedHanded enteredRespects fits
  have oldest : ∀ state, state < builder.nextState → extended state = label state := by
    intro state before
    rw [old state (Nat.lt_trans before isNew), enteredOld state before]
  refine ⟨extended, oldest, wiredRespects.add ?_⟩
  rw [final, oldest stop stopBound]
  exact above

theorem inject_branches_labels {items : List (Pattern κ)}
    (holds : ∀ item ∈ items, item.ExtendsLabels υ) {start stop : Nat}
    {builder : AutomatonBuilder κ} {label : Nat → List υ → Prop}
    (bound : start < builder.nextState) (stopBound : stop < builder.nextState)
    (handed : builder.Handed) (respects : Respects label builder.table)
    (branches : ∀ item ∈ items, ∃ entry exit : List υ → Prop, item.profile.Fits entry exit ∧
      (∀ word, label stop word → exit word) ∧ ∀ word, entry word → label start word) :
    ∃ extended : Nat → List υ → Prop,
      (∀ state, state < builder.nextState → extended state = label state) ∧
        Respects extended (injectBranches items start stop builder).table := by
  induction items generalizing builder label with
  | nil =>
      rw [inject_branches_nil]
      exact ⟨label, fun _ _ => rfl, respects⟩
  | cons item items induction =>
      rw [inject_branches_cons]
      obtain ⟨entry, exit, itemFits, above, below⟩ := branches item (List.mem_cons_self ..)
      obtain ⟨first, firstOld, firstRespects⟩ := inject_branch_labels
        (holds item (List.mem_cons_self ..)) bound stopBound handed respects itemFits above below
      have later := lt_next_state_inject_branch (inject_grows item) start stop builder
      obtain ⟨second, secondOld, secondRespects⟩ := induction
        (fun other member => holds other (List.mem_cons_of_mem item member))
        (Nat.lt_trans bound later) (Nat.lt_trans stopBound later)
        (handed_inject_branch item bound stopBound handed) firstRespects (by
          rw [firstOld start bound, firstOld stop stopBound]
          exact fun other member => branches other (List.mem_cons_of_mem item member))
      refine ⟨second, ?_, secondRespects⟩
      intro state before
      rw [secondOld state (Nat.lt_trans before later), firstOld state before]

theorem inject_labels (pattern : Pattern κ) : pattern.ExtendsLabels υ := by
  induction pattern using item_induction with
  | literal test =>
      intro start builder label after bound handed respects fits
      rw [inject_literal]
      obtain ⟨extended, old, new, extends_⟩ := respects.exists_with_state handed after
      refine ⟨extended, old, new, extends_.add ?_⟩
      rw [old start bound, new]
      intro value word passes later
      exact fits.2.1 [value] word (.literal passes) later
  | concat items holds =>
      intro start builder label after bound handed respects fits
      rw [inject_concat]
      exact inject_sequence_labels holds bound handed respects fits
  | choice items holds =>
      intro start builder label after bound handed respects fits
      rw [inject_choice]
      have isNew : builder.nextState < builder.withState.nextState := by
        rw [next_state_with_state]
        exact Nat.lt_succ_self _
      obtain ⟨ended, endedOld, endedNew, endedRespects⟩ := respects.exists_with_state handed after
      have endedHanded := (Grows.refl builder start).with_state.handed bound handed
      obtain ⟨extended, old, final⟩ := inject_branches_labels holds (Nat.lt_trans bound isNew) isNew
        endedHanded endedRespects (by
          rw [endedOld start bound, endedNew]
          exact fun item member => exists_fits_of_choice fits member)
      refine ⟨extended, ?_, (old _ isNew).trans endedNew, final⟩
      intro state before
      rw [old state (Nat.lt_trans before isNew), endedOld state before]
  | star body holds =>
      intro start builder label after bound handed respects fits
      rw [inject_star]
      obtain ⟨same, bodyFits⟩ := Profile.Fits.of_joined fits
      obtain ⟨extended, old, final, extends_⟩ :=
        holds start builder label after bound handed respects bodyFits
      have joined : extended start = extended (body.inject start builder).1 := by
        rw [final, old start bound, same]
      refine ⟨extended, old, final, (extends_.add ?_).add ?_⟩
      · exact fun word allowed => joined ▸ allowed
      · exact fun word allowed => joined ▸ allowed
  | empty =>
      intro start builder label after bound handed respects fits
      rw [inject_empty]
      exact ⟨label, fun _ _ => rfl, fits.1, respects⟩

section Reading

variable {automaton : Automaton κ} {target : Nat}

def reads (automaton : Automaton κ) (υ : Type v) [Matches κ υ] (target state : Nat)
    (word : List υ) : Prop :=
  automaton.Path state word target

theorem reads_of_epsilon {source state : Nat}
    (silent : ⟨.epsilon, state⟩ ∈ automaton.transitions source) {word : List υ}
    (path : reads automaton υ target state word) : reads automaton υ target source word :=
  .epsilon silent rfl path

/-- In any automaton that holds the wiring, what is read from its two ends fits the pattern. -/
def FitsPaths (pattern : Pattern κ) (υ : Type v) [Matches κ υ] (automaton : Automaton κ)
    (target : Nat) : Prop :=
  ∀ (start : Nat) (builder : AutomatonBuilder κ),
    (pattern.inject start builder).2.table.Within automaton.table →
      pattern.profile.Fits (reads automaton υ target start)
        (reads automaton υ target (pattern.inject start builder).1)

theorem sequence_fits_paths {items : List (Pattern κ)}
    (holds : ∀ item ∈ items, item.FitsPaths υ automaton target) (start : Nat)
    (builder : AutomatonBuilder κ)
    (within : (injectSequence items start builder).2.table.Within automaton.table) :
    (profileSequence items).Fits (reads automaton υ target start)
      (reads automaton υ target (injectSequence items start builder).1) := by
  induction items generalizing start builder with
  | nil =>
      rw [inject_sequence_nil]
      exact ⟨rfl, fun _ member => absurd member List.not_mem_nil⟩
  | cons item items induction =>
      rw [inject_sequence_cons] at within ⊢
      have others : ∀ other ∈ items, other.KeepsTransitions := fun other _ => within_inject other
      have inner := within_inject_sequence others (item.inject start builder).1
        (item.inject start builder).2
      have first := holds item (List.mem_cons_self ..) start builder (inner.trans within)
      exact first.follow (induction
        (fun other member => holds other (List.mem_cons_of_mem item member)) _ _ within)

theorem branch_leads_paths {item : Pattern κ} (holds : item.FitsPaths υ automaton target)
    {start stop : Nat} (builder : AutomatonBuilder κ)
    (within : (item.injectBranch start stop builder).table.Within automaton.table) :
    item.fused.Leads (reads automaton υ target start) (reads automaton υ target stop) := by
  have inner := within_inject item builder.nextState (openBranch builder start)
  have wiredWithin := (within_add_transition ..).trans within
  have leaving := within.mem (mem_add_transition ..)
  have entering := (inner.trans wiredWithin).mem
    (builder.withState.mem_add_transition start .epsilon builder.nextState)
  have fits := holds builder.nextState (openBranch builder start) wiredWithin
  intro first rest once later
  exact reads_of_epsilon entering (fits.leads first rest once (reads_of_epsilon leaving later))

theorem branches_lead_paths {items : List (Pattern κ)}
    (holds : ∀ item ∈ items, item.FitsPaths υ automaton target) {start stop : Nat}
    (builder : AutomatonBuilder κ)
    (within : (injectBranches items start stop builder).table.Within automaton.table) :
    ∀ item ∈ items,
      item.fused.Leads (reads automaton υ target start) (reads automaton υ target stop) := by
  induction items generalizing builder with
  | nil => exact fun _ member => absurd member List.not_mem_nil
  | cons item items induction =>
      rw [inject_branches_cons] at within
      have others : ∀ other ∈ items, other.KeepsTransitions := fun other _ => within_inject other
      have firstWithin := (within_inject_branches others start stop _).trans within
      intro other member
      rcases List.mem_cons.1 member with rfl | inItems
      · exact branch_leads_paths (holds other (List.mem_cons_self ..)) builder firstWithin
      · exact induction (fun other member => holds other (List.mem_cons_of_mem item member)) _
          within other inItems

theorem fits_paths (pattern : Pattern κ) (automaton : Automaton κ) (target : Nat) :
    pattern.FitsPaths υ automaton target := by
  have alone : ∀ body ∈ ([] : List (Pattern κ)), ∀ words : List υ → Prop, body.Leads words words :=
    fun _ member => absurd member List.not_mem_nil
  induction pattern using item_induction with
  | literal test =>
      intro start builder within
      rw [inject_literal] at within ⊢
      have leaving := within.mem (builder.withState.mem_add_transition ..)
      refine ⟨fun body member => alone body member _, ?_, fun body member => alone body member _⟩
      intro first rest once later
      cases once with
      | literal passes => exact .value leaving passes later
  | concat items holds =>
      intro start builder within
      rw [inject_concat] at within ⊢
      exact sequence_fits_paths holds start builder within
  | choice items holds =>
      intro start builder within
      rw [inject_choice] at within ⊢
      exact fits_choice (branches_lead_paths holds builder.withState within)
  | star body holds =>
      intro start builder within
      rw [inject_star] at within ⊢
      have bodyFits := holds start builder
      generalize body.inject start builder = wired at bodyFits within ⊢
      let joined := wired.2.addTransition start .epsilon wired.1
      have back := within.mem (joined.mem_add_transition wired.1 .epsilon start)
      have joinedWithin := (joined.within_add_transition ..).trans within
      have forth := joinedWithin.mem (wired.2.mem_add_transition start .epsilon wired.1)
      replace bodyFits := bodyFits ((wired.2.within_add_transition ..).trans joinedWithin)
      have same : reads automaton υ target start = reads automaton υ target wired.1 := by
        funext word
        exact propext ⟨reads_of_epsilon back, reads_of_epsilon forth⟩
      rw [← same] at bodyFits ⊢
      exact bodyFits.joined
  | empty =>
      intro start builder within
      rw [inject_empty]
      exact ⟨rfl, fun body member => alone body member _⟩

end Reading

end Pattern

end TreePattern
