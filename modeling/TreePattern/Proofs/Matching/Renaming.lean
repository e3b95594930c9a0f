import Mathlib.Order.Monotone.Basic
import TreePattern.Proofs.Matching.AlongCuts

/-!
# Traversals that agree up to renaming

Positions may be renamed as long as their order stays, and automata may change their index. If what
belongs to an automaton in one tree is what belongs to it in another, renamed, then so are the lists
that traversals record, the steps that finish matches and the derivations, or what the strict policy
reports in place of one.
-/

set_option autoImplicit false

namespace TreePattern

universe u v w

/-- New positions in the same order, and new indices of automata. -/
structure Renaming where
  place : Nat → Nat
  increasing : StrictMono place
  owner : Nat → Nat

variable {names : Renaming}

def Attempt.rename (names : Renaming) (attempt : Attempt) : Attempt where
  last := attempt.last.map names.place
  state := attempt.state
  automaton := names.owner attempt.automaton

def Step.rename (names : Renaming) (step : Step) : Step where
  last := step.last.map names.place
  source := step.source
  position := names.place step.position
  target := step.target
  automaton := names.owner step.automaton

theorem Attempt.rename_advance (attempt : Attempt) (position target : Nat) :
    (attempt.advance position target).rename names =
      (attempt.rename names).advance (names.place position) target := rfl

namespace Renaming

/-- Both go well, the one result being the other renamed, or both end at the same ambiguity, which
only the strict policy reports. -/
inductive Corresponds {α : Type w} (names : Renaming) (policy : Policy) (rename : α → α) :
    Except Failure α → Except Failure α → Prop where
  | found (result : α) : Corresponds names policy rename (.ok result) (.ok (rename result))
  | ambiguous (strict : policy = .strict) (position state : Nat) :
      Corresponds names policy rename (.error (.ambiguousDerivation position state))
        (.error (.ambiguousDerivation (names.place position) state))

theorem Corresponds.map_m {policy : Policy} {back otherBack : Step → Except Failure (List Step)}
    {steps : List Step}
    (each : ∀ step ∈ steps, Corresponds names policy (List.map (Step.rename names))
      (back step) (otherBack (step.rename names))) :
    Corresponds names policy (List.map (List.map (Step.rename names))) (steps.mapM back)
      ((steps.map (Step.rename names)).mapM otherBack) := by
  induction steps with
  | nil => exact .found []
  | cons step rest induction =>
      rw [List.forall_mem_cons] at each
      obtain ⟨first, others⟩ := each
      rw [List.map_cons, List.mapM_cons, List.mapM_cons]
      generalize back step = one, otherBack (step.rename names) = other at first
      cases first with
      | found steps =>
          replace others := induction others
          generalize rest.mapM back = all, (rest.map (Step.rename names)).mapM otherBack = more
            at others
          cases others with
          | found found => exact .found (steps :: found)
          | ambiguous strict position state => exact .ambiguous strict position state
      | ambiguous strict position state => exact .ambiguous strict position state

end Renaming

section Order

theorem position_key_lt_of_place {left right : Option Nat}
    (smaller : positionKey left < positionKey right) :
    positionKey (left.map names.place) < positionKey (right.map names.place) := by
  cases right with
  | none => exact absurd smaller (Nat.not_lt_zero _)
  | some right =>
      cases left with
      | none => exact Nat.succ_pos _
      | some left =>
          have before : left < right := Nat.lt_of_succ_lt_succ smaller
          exact Nat.succ_lt_succ (names.increasing before)

theorem Attempt.rename_key_lt {first second : Attempt} (smaller : first.key < second.key)
    (owners : first.automaton < second.automaton →
      names.owner first.automaton < names.owner second.automaton) :
    (first.rename names).key < (second.rename names).key := by
  simp only [key, rename, List.cons_lt_cons_iff, List.not_lt_nil, and_false, or_false] at smaller ⊢
  rcases smaller with before | ⟨last, before | ⟨state, before⟩⟩
  · exact Or.inl (position_key_lt_of_place before)
  · rw [position_key_injective last]
    exact Or.inr ⟨rfl, Or.inl before⟩
  · rw [position_key_injective last]
    exact Or.inr ⟨rfl, Or.inr ⟨state, owners before⟩⟩

theorem Step.rename_key_lt {first second : Step} (smaller : first.key < second.key)
    (owners : first.automaton < second.automaton →
      names.owner first.automaton < names.owner second.automaton) :
    (first.rename names).key < (second.rename names).key := by
  simp only [key, rename, List.cons_lt_cons_iff, List.not_lt_nil, and_false, or_false] at smaller ⊢
  rcases smaller with before | ⟨last, before | ⟨source, before | ⟨position, rest⟩⟩⟩
  · exact Or.inl (position_key_lt_of_place before)
  · rw [position_key_injective last]
    exact Or.inr ⟨rfl, Or.inl before⟩
  · rw [position_key_injective last]
    exact Or.inr ⟨rfl, Or.inr ⟨source, Or.inl (names.increasing before)⟩⟩
  · rw [position_key_injective last, position]
    rcases rest with before | ⟨target, before⟩
    · exact Or.inr ⟨rfl, Or.inr ⟨source, Or.inr ⟨rfl, Or.inl before⟩⟩⟩
    · exact Or.inr ⟨rfl, Or.inr ⟨source, Or.inr ⟨rfl, Or.inr ⟨target, owners before⟩⟩⟩⟩

/-- A list in order whose members are the images of another list in order is its image. -/
theorem Increasing.eq_map {α : Type u} {key : α → List Nat} {image : α → α}
    {elements others : List α}
    (sorted : Increasing key elements) (otherSorted : Increasing key others)
    (keeps : ∀ first ∈ elements, ∀ second ∈ elements, key first < key second →
      key (image first) < key (image second))
    (members : ∀ other, other ∈ others ↔ ∃ element ∈ elements, image element = other) :
    others = elements.map image := by
  apply otherSorted.eq_of_mem_iff
  · apply List.pairwise_map.2
    apply List.Pairwise.imp_of_mem _ sorted
    intro first second isFirst isSecond smaller
    exact keeps first isFirst second isSecond smaller
  · intro other
    rw [members, List.mem_map]

theorem Increasing.eq_map_attempts {attempts others : List Attempt}
    (sorted : Increasing Attempt.key attempts) (otherSorted : Increasing Attempt.key others)
    {index : Nat} (owned : ∀ attempt ∈ attempts, attempt.automaton = index)
    (members : ∀ other, other ∈ others ↔ ∃ attempt ∈ attempts, attempt.rename names = other) :
    others = attempts.map (Attempt.rename names) := by
  apply sorted.eq_map otherSorted _ members
  intro first isFirst second isSecond smaller
  apply Attempt.rename_key_lt smaller
  rw [owned first isFirst, owned second isSecond]
  exact fun impossible => absurd impossible (Nat.lt_irrefl index)

theorem Increasing.eq_map_steps {steps others : List Step}
    (sorted : Increasing Step.key steps) (otherSorted : Increasing Step.key others)
    {index : Nat} (owned : ∀ step ∈ steps, step.automaton = index)
    (members : ∀ other, other ∈ others ↔ ∃ step ∈ steps, step.rename names = other) :
    others = steps.map (Step.rename names) := by
  apply sorted.eq_map otherSorted _ members
  intro first isFirst second isSecond smaller
  apply Step.rename_key_lt smaller
  rw [owned first isFirst, owned second isSecond]
  exact fun impossible => absurd impossible (Nat.lt_irrefl index)

end Order

theorem Step.rename_hands_iff (earlier step : Step) :
    (earlier.rename names).HandsTo (step.rename names) ↔ earlier.HandsTo step := by
  constructor
  · intro hands
    obtain ⟨position, last, same⟩ := Option.map_eq_some_iff.1 hands.position
    refine ⟨?_, hands.state⟩
    rw [last, names.increasing.injective same]
  · intro hands
    refine ⟨?_, hands.state⟩
    exact congrArg (Option.map names.place) hands.position

variable {κ : Type u} {π : Type v} [Matches κ (Node π)]

/-- What belongs to the automaton in the other tree, where it has its new index, is what belongs to
it in this tree, renamed. -/
structure Automaton.Mirrors (automaton : Automaton κ) (tree other : Tree π) (index : Nat)
    (names : Renaming) : Prop where
  bound : ∀ id < tree.size, names.place id < other.size
  enters : ∀ id < tree.size, ∀ attempt,
    automaton.Enters other (names.owner index) (names.place id) attempt ↔
      ∃ original, automaton.Enters tree index id original ∧ original.rename names = attempt
  passes : ∀ id step, automaton.Passes other (names.owner index) id step ↔
    ∃ origin original, automaton.Passes tree index origin original ∧
      names.place origin = id ∧ original.rename names = step
  fills : ∀ id < tree.size, other.Fills (names.place id) other.size ↔ tree.Fills id tree.size

namespace Automaton.Mirrors

variable {automaton : Automaton κ} {tree other : Tree π} {index : Nat}

theorem passes_place (mirrors : automaton.Mirrors tree other index names) (id : Nat)
    (step : Step) :
    automaton.Passes other (names.owner index) (names.place id) step ↔
      ∃ original, automaton.Passes tree index id original ∧ original.rename names = step := by
  rw [mirrors.passes]
  constructor
  · intro renamed
    obtain ⟨origin, original, passes, place, same⟩ := renamed
    rw [names.increasing.injective place] at passes
    exact ⟨original, passes, same⟩
  · intro renamed
    obtain ⟨original, passes, same⟩ := renamed
    exact ⟨id, original, passes, rfl, same⟩

theorem precedes_iff (mirrors : automaton.Mirrors tree other index names) (step earlier : Step) :
    automaton.Precedes other (names.owner index) earlier (step.rename names) ↔
      ∃ original, automaton.Precedes tree index original step ∧
        original.rename names = earlier := by
  constructor
  · intro precedes
    obtain ⟨origin, original, passes, -, same⟩ := (mirrors.passes _ _).1 precedes.1
    have position := ((passes_iff original).1 passes).2.1
    have hands := precedes.2
    subst position
    rw [← same, Step.rename_hands_iff] at hands
    exact ⟨original, ⟨passes, hands⟩, same⟩
  · intro renamed
    obtain ⟨original, precedes, same⟩ := renamed
    rw [← same]
    refine ⟨?_, (Step.rename_hands_iff ..).2 precedes.2⟩
    exact (mirrors.passes_place original.position _).2 ⟨original, precedes.1, rfl⟩

end Automaton.Mirrors

structure Traversal.Holds (traversal : Traversal π) (id index : Nat) (attempts : List Attempt)
    (steps : List Step) : Prop where
  field : ∃ field, traversal.fields[id]? = some field ∧ field.attempts[index]? = some attempts ∧
    field.steps[index]? = some steps

theorem Traversal.Holds.unique {traversal : Traversal π} {id index : Nat}
    {attempts others : List Attempt} {steps more : List Step}
    (holds : traversal.Holds id index attempts steps)
    (again : traversal.Holds id index others more) : attempts = others ∧ steps = more := by
  obtain ⟨field, found, attemptsListed, stepsListed⟩ := holds.field
  obtain ⟨field', found', attemptsListed', stepsListed'⟩ := again.field
  rw [found] at found'
  cases found'
  rw [attemptsListed] at attemptsListed'
  rw [stepsListed] at stepsListed'
  exact ⟨Option.some.inj attemptsListed', Option.some.inj stepsListed'⟩

namespace Engine

theorem Visited.exists_holds {engine : Engine κ} {tree : Tree π} {traversal : Traversal π}
    (visited : engine.Visited tree tree.size traversal) (ordered : traversal.Ordered)
    {automaton : Automaton κ} {index : Nat} (known : engine.automata[index]? = some automaton)
    {id : Nat} (bound : id < tree.size) :
    ∃ attempts steps, traversal.Holds id index attempts steps ∧
      Increasing Attempt.key attempts ∧ Increasing Step.key steps ∧
      (∀ attempt, attempt ∈ attempts ↔ automaton.Enters tree index id attempt) ∧
      ∀ step, step ∈ steps ↔ automaton.Passes tree index id step := by
  obtain ⟨field, found, records⟩ := visited.records id bound
  obtain ⟨attempts, attemptsListed, attemptMembers⟩ := records.attempts index automaton known
  obtain ⟨steps, stepsListed, stepMembers⟩ := records.steps index automaton known
  have fieldOrdered := ordered field (Array.mem_of_getElem? found)
  have attemptsOrdered := fieldOrdered.attempts attempts (Array.mem_of_getElem? attemptsListed)
  have stepsOrdered := fieldOrdered.steps steps (Array.mem_of_getElem? stepsListed)
  exact ⟨attempts, steps, ⟨field, found, attemptsListed, stepsListed⟩, attemptsOrdered,
    stepsOrdered, attemptMembers, stepMembers⟩

theorem exists_accepted (engine : Engine κ) {tree : Tree π} (preorder : tree.IsPreorder) :
    ∃ accepted, engine.acceptedSteps (engine.traverse tree) = .ok accepted ∧
      Increasing Step.key accepted ∧ ∀ step, step ∈ accepted ↔ engine.Finishes tree step := by
  have visited := engine.visited_traverse preorder
  exact ⟨_, accepted_steps_eq preorder visited,
    increasing_order_by_key (fun _ _ => Step.key_injective) _, mem_accepted_iff preorder visited⟩

end Engine

/-- Two engines, each on its tree, run an automaton that mirrors itself under its new index. -/
structure MirroredRuns (engine : Engine κ) (tree : Tree π) (otherEngine : Engine κ)
    (other : Tree π) (automaton : Automaton κ) (index : Nat) (names : Renaming) : Prop where
  preorder : tree.IsPreorder
  otherPreorder : other.IsPreorder
  known : engine.automata[index]? = some automaton
  otherKnown : otherEngine.automata[names.owner index]? = some automaton
  policy : otherEngine.policy = engine.policy
  mirrors : automaton.Mirrors tree other index names

namespace MirroredRuns

variable {engine otherEngine : Engine κ} {tree other : Tree π} {automaton : Automaton κ}
  {index : Nat}

theorem exists_holds (runs : MirroredRuns engine tree otherEngine other automaton index names)
    {id : Nat} (bound : id < tree.size) :
    ∃ attempts steps, (engine.traverse tree).Holds id index attempts steps ∧
      (otherEngine.traverse other).Holds (names.place id) (names.owner index)
        (attempts.map (Attempt.rename names)) (steps.map (Step.rename names)) := by
  have otherBound := runs.mirrors.bound id bound
  obtain ⟨attempts, steps, holds, attemptsSorted, stepsSorted, attemptMembers, stepMembers⟩ :=
    (engine.visited_traverse runs.preorder).exists_holds (engine.ordered_traverse runs.preorder)
      runs.known bound
  obtain ⟨others, more, otherHolds, othersSorted, moreSorted, otherMembers, moreMembers⟩ :=
    (otherEngine.visited_traverse runs.otherPreorder).exists_holds
      (otherEngine.ordered_traverse runs.otherPreorder) runs.otherKnown otherBound
  have sameAttempts : others = attempts.map (Attempt.rename names) := by
    apply attemptsSorted.eq_map_attempts othersSorted
    · exact fun attempt member => ((attemptMembers attempt).1 member).1
    · intro attempt
      simp only [otherMembers, runs.mirrors.enters id bound, attemptMembers]
  have sameSteps : more = steps.map (Step.rename names) := by
    apply stepsSorted.eq_map_steps moreSorted
    · exact fun step member => ((Automaton.passes_iff step).1 ((stepMembers step).1 member)).1
    · intro step
      simp only [moreMembers, runs.mirrors.passes_place, stepMembers]
  rw [sameAttempts, sameSteps] at otherHolds
  exact ⟨attempts, steps, holds, otherHolds⟩

theorem finishes_iff (runs : MirroredRuns engine tree otherEngine other automaton index names)
    {step : Step} (owned : step.automaton = names.owner index) :
    otherEngine.Finishes other step ↔
      ∃ original, original.automaton = index ∧ engine.Finishes tree original ∧
        original.rename names = step := by
  rw [Engine.finishes_iff (owned ▸ runs.otherKnown), owned]
  constructor
  · intro finishes
    obtain ⟨fills, renamed, accepting⟩ := finishes
    obtain ⟨origin, original, passes, place, same⟩ := (runs.mirrors.passes _ _).1 renamed
    obtain ⟨owner, position, -⟩ := (Automaton.passes_iff original).1 passes
    obtain ⟨node, present, -⟩ := passes.moves
    have bound := Tree.lt_size_of_found present
    subst position owner
    rw [← place, runs.mirrors.fills _ bound] at fills
    rw [← same] at accepting
    exact ⟨original, rfl, (Engine.finishes_iff runs.known).2 ⟨fills, passes, accepting⟩, same⟩
  · intro renamed
    obtain ⟨original, owner, finishes, same⟩ := renamed
    subst owner same
    obtain ⟨fills, passes, accepting⟩ := (Engine.finishes_iff runs.known).1 finishes
    have otherFills := (runs.mirrors.fills _ fills.lt_size).2 fills
    have otherPasses := (runs.mirrors.passes_place _ _).2 ⟨original, passes, rfl⟩
    exact ⟨otherFills, otherPasses, accepting⟩

theorem exists_predecessors
    (runs : MirroredRuns engine tree otherEngine other automaton index names) {step : Step}
    (passes : automaton.Passes tree index step.position step) {position : Nat}
    (last : step.last = some position) :
    ∃ found others,
      Engine.predecessors (engine.traverse tree) step position = .ok (found :: others) ∧
      automaton.Precedes tree index found step ∧
      Engine.predecessors (otherEngine.traverse other) (step.rename names) (names.place position) =
        .ok (found.rename names :: others.map (Step.rename names)) := by
  have owner := ((Automaton.passes_iff step).1 passes).1
  subst owner
  obtain ⟨found, others, listed, sorted, members⟩ :=
    Engine.predecessors_spec (engine.visited_traverse runs.preorder)
      (engine.ordered_traverse runs.preorder) runs.known passes last
  have otherLast : (step.rename names).last = some (names.place position) :=
    congrArg (Option.map names.place) last
  have otherPasses : automaton.Passes other (step.rename names).automaton
      (step.rename names).position (step.rename names) :=
    (runs.mirrors.passes_place _ _).2 ⟨step, passes, rfl⟩
  obtain ⟨otherFound, otherOthers, otherListed, otherSorted, otherMembers⟩ :=
    Engine.predecessors_spec (otherEngine.visited_traverse runs.otherPreorder)
      (otherEngine.ordered_traverse runs.otherPreorder) runs.otherKnown otherPasses otherLast
  refine ⟨found, others, listed, (members found).1 List.mem_cons_self, ?_⟩
  have same : otherFound :: otherOthers = (found :: others).map (Step.rename names) := by
    apply sorted.eq_map_steps otherSorted
    · exact fun other member => ((Automaton.passes_iff other).1 ((members other).1 member).1).1
    · intro earlier
      rw [otherMembers]
      simp only [members]
      exact runs.mirrors.precedes_iff step earlier
  rw [otherListed, same, List.map_cons]

/-- Going back from a renamed step gives the renamed steps, or ends at the same ambiguity. -/
theorem follow_back (runs : MirroredRuns engine tree otherEngine other automaton index names)
    (count otherCount : Nat) (step : Step) (later : List Step)
    (passes : automaton.Passes tree index step.position step) (enough : step.position < count)
    (otherEnough : names.place step.position < otherCount) :
    names.Corresponds engine.policy (List.map (Step.rename names))
      (engine.followBack (engine.traverse tree) count step later)
      (otherEngine.followBack (otherEngine.traverse other) otherCount (step.rename names)
        (later.map (Step.rename names))) := by
  -- Positions decrease on the way back in both trees, so neither count runs out.
  induction count generalizing otherCount step later with
  | zero => omega
  | succ count induction =>
      obtain ⟨otherCount, rfl⟩ := Nat.exists_eq_succ_of_ne_zero (Nat.ne_zero_of_lt otherEnough)
      unfold Engine.followBack
      cases last : step.last with
      | none =>
          have otherLast : (step.rename names).last = none := congrArg (Option.map names.place) last
          simp only [otherLast]
          exact .found (step :: later)
      | some position =>
          have otherLast : (step.rename names).last = some (names.place position) :=
            congrArg (Option.map names.place) last
          obtain ⟨found, others, listed, precedes, otherListed⟩ :=
            runs.exists_predecessors passes last
          simp only [otherLast, listed, otherListed, runs.policy, ne_eq, List.map_eq_nil_iff]
          split
          · rename_i several
            exact .ambiguous several.1 position step.source
          · have before := passes.lt_of_hands precedes.2
            have otherBefore := names.increasing before
            exact induction otherCount found (step :: later) precedes.1 (by omega) (by omega)

theorem derivation_of (runs : MirroredRuns engine tree otherEngine other automaton index names)
    {step : Step} (passes : automaton.Passes tree index step.position step) :
    names.Corresponds engine.policy (List.map (Step.rename names))
      (engine.derivationOf (engine.traverse tree) step)
      (otherEngine.derivationOf (otherEngine.traverse other) (step.rename names)) := by
  obtain ⟨node, present, -⟩ := passes.moves
  have bound := Tree.lt_size_of_found present
  have otherBound := runs.mirrors.bound _ bound
  unfold Engine.derivationOf
  rw [(engine.visited_traverse runs.preorder).visited_size,
    (otherEngine.visited_traverse runs.otherPreorder).visited_size]
  exact runs.follow_back _ _ step [] passes (by omega) (by omega)

end MirroredRuns

section SamePlaces

variable {owner : Nat → Nat}

def Renaming.owning (owner : Nat → Nat) : Renaming where
  place := id
  increasing := strictMono_id
  owner := owner

theorem Attempt.rename_owning (attempt : Attempt) :
    attempt.rename (.owning owner) = { attempt with automaton := owner attempt.automaton } := by
  simp only [rename, Renaming.owning, Option.map_id_fun, id_eq]

theorem Step.rename_owning (step : Step) :
    step.rename (.owning owner) = { step with automaton := owner step.automaton } := by
  simp only [rename, Renaming.owning, Option.map_id_fun, id_eq]

theorem Renaming.Corresponds.eq_map_owning {α : Type w} {policy : Policy} {rename : α → α}
    {result other : Except Failure α}
    (corresponds : (Renaming.owning owner).Corresponds policy rename result other) :
    other = result.map rename := by
  cases corresponds with
  | found result => rfl
  | ambiguous strict position state => rfl

theorem Automaton.mirrors_owning (automaton : Automaton κ) (tree : Tree π) (index : Nat) :
    automaton.Mirrors tree tree index (.owning owner) where
  bound _ bound := bound
  enters id _ attempt := by
    constructor
    · intro enters
      have isOwner : attempt.automaton = owner index := enters.1
      refine ⟨{ attempt with automaton := index }, ⟨rfl, enters.2⟩, ?_⟩
      rw [Attempt.rename_owning, ← isOwner]
    · intro renamed
      obtain ⟨original, ⟨isOwner, reached⟩, same⟩ := renamed
      rw [Attempt.rename_owning, isOwner] at same
      subst same
      exact ⟨rfl, reached⟩
  passes id step := by
    simp only [Automaton.passes_iff]
    constructor
    · intro passes
      have isOwner : step.automaton = owner index := passes.1
      refine ⟨id, { step with automaton := index }, ⟨rfl, passes.2⟩, rfl, ?_⟩
      rw [Step.rename_owning, ← isOwner]
    · intro renamed
      obtain ⟨origin, original, ⟨isOwner, position, reached⟩, place, same⟩ := renamed
      rw [Step.rename_owning, isOwner] at same
      subst same place
      exact ⟨rfl, position, reached⟩
  fills _ _ := Iff.rfl

/-- Two engines of one policy derive in the same way what ends in a step of an automaton that both
have under the same index. -/
theorem Engine.derivation_of_eq {engine other : Engine κ} {tree : Tree π}
    (preorder : tree.IsPreorder) (policy : other.policy = engine.policy)
    {automaton : Automaton κ} {index : Nat} (known : engine.automata[index]? = some automaton)
    (otherKnown : other.automata[index]? = some automaton) {step : Step}
    (passes : automaton.Passes tree index step.position step) :
    other.derivationOf (other.traverse tree) step =
      engine.derivationOf (engine.traverse tree) step := by
  have runs : MirroredRuns engine tree other tree automaton index (.owning id) :=
    ⟨preorder, preorder, known, otherKnown, policy, automaton.mirrors_owning tree index⟩
  have same : Step.rename (.owning id) = id := funext fun step => step.rename_owning
  have derived := (runs.derivation_of passes).eq_map_owning
  rw [same, List.map_id_fun, Except.map_id] at derived
  exact derived

end SamePlaces

end TreePattern
