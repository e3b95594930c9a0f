import TreePattern.Proofs.Automaton.SubsetStates

/-!
# The rows of a subset construction

Expanding a set answers with its row: one transition for each test of the set, in order, to the
number of the set reached on that test. Sets found before keep their numbers, so rows stay right
while later sets are expanded, and a construction that succeeds has a row for every set it numbered.
-/

set_option autoImplicit false

namespace TreePattern

universe u

namespace Automaton

variable {κ : Type u} [BEq κ]

section Numbers

theorem get_of_prefix {found later : List (List Nat)} (keeps : found <+: later) {index : Nat}
    {members : List Nat} (numbered : found[index]? = some members) :
    later[index]? = some members := by
  obtain ⟨added, rfl⟩ := keeps
  rw [List.getElem?_append_left (List.getElem?_eq_some_iff.1 numbered).1, numbered]

theorem number_keeps (found : List (List Nat)) (members : List Nat) :
    found <+: (number found members).2 := by
  unfold number
  split
  · exact List.prefix_refl found
  · exact List.prefix_append found [members]

theorem number_finds (found : List (List Nat)) (members : List Nat) :
    (number found members).2[(number found members).1]? = some members := by
  unfold number
  split
  · rename_i index known
    obtain ⟨bound, same, -⟩ := List.idxOf?_eq_some_iff.1 known
    rw [List.getElem?_eq_getElem bound, same]
  · exact List.getElem?_concat_length

theorem number_nodup {found : List (List Nat)} (distinct : found.Nodup) (members : List Nat) :
    (number found members).2.Nodup := by
  unfold number
  split
  · exact distinct
  · rename_i unknown
    have absent := List.idxOf?_eq_none_iff.1 unknown
    rw [List.nodup_append]
    refine ⟨distinct, List.nodup_singleton members, ?_⟩
    intro old inFound new isNew
    rw [List.mem_singleton] at isNew
    subst isNew
    exact fun same => absent (same ▸ inFound)

theorem mem_number {found : List (List Nat)} {members set : List Nat}
    (member : set ∈ (number found members).2) : set ∈ found ∨ set = members := by
  unfold number at member
  split at member
  · exact Or.inl member
  · simpa only [List.mem_append, List.mem_singleton] using member

end Numbers

def Expands (automaton : Automaton κ) (found : List (List Nat)) (members : List Nat) (test : κ)
    (transition : Transition κ) : Prop :=
  transition.condition = .consume test ∧
    ∃ next, automaton.testStep members test = .ok next ∧
      found[transition.destination]? = some next

theorem Expands.mono {automaton : Automaton κ} {found later : List (List Nat)}
    {members : List Nat} {test : κ} {transition : Transition κ} (keeps : found <+: later)
    (expands : automaton.Expands found members test transition) :
    automaton.Expands later members test transition := by
  obtain ⟨condition, next, stepped, numbered⟩ := expands
  exact ⟨condition, next, stepped, get_of_prefix keeps numbered⟩

structure Expansion (automaton : Automaton κ) (members : List Nat) (tests : List κ)
    (found : List (List Nat)) (row : List (Transition κ)) (after : List (List Nat)) : Prop where
  keeps : found <+: after
  row : List.Forall₂ (automaton.Expands after members) tests row
  distinct : found.Nodup → after.Nodup
  origin : ∀ set ∈ after,
    set ∈ found ∨ ∃ test ∈ tests, automaton.testStep members test = .ok set

theorem expansion_of_expand_set {automaton : Automaton κ} {members : List Nat} {tests : List κ}
    {found after : List (List Nat)} {row : List (Transition κ)}
    (expanded : automaton.expandSet members tests found = .ok (row, after)) :
    automaton.Expansion members tests found row after := by
  induction tests generalizing found row with
  | nil =>
      cases expanded
      exact ⟨List.prefix_refl _, .nil, id, fun set member => Or.inl member⟩
  | cons test rest induction =>
      unfold expandSet at expanded
      split at expanded
      · cases expanded
      · rename_i next stepped
        dsimp only at expanded
        split at expanded
        · cases expanded
        · rename_i restRow final restExpanded
          cases expanded
          have tail := induction restExpanded
          have kept := number_keeps found next
          refine ⟨kept.trans tail.keeps, .cons ?_ tail.row, ?_, ?_⟩
          · exact ⟨rfl, next, stepped, get_of_prefix tail.keeps (number_finds found next)⟩
          · exact fun distinct => tail.distinct (number_nodup distinct next)
          · intro set member
            rcases tail.origin set member with before | ⟨other, inRest, reached⟩
            · rcases mem_number before with old | rfl
              · exact Or.inl old
              · exact Or.inr ⟨test, List.mem_cons_self .., stepped⟩
            · exact Or.inr ⟨other, List.mem_cons_of_mem _ inRest, reached⟩

/-- The state of the construction: the sets found so far and the rows of the first of them. -/
structure Numbering (automaton : Automaton κ) (found : List (List Nat))
    (rows : Array (List (Transition κ))) : Prop where
  first : found[0]? = some (automaton.closure (.ofList [automaton.start])).toList
  distinct : found.Nodup
  closed : ∀ members ∈ found, automaton.IsClosed members
  within : rows.size ≤ found.length
  row : ∀ index members, index < rows.size → found[index]? = some members →
    List.Forall₂ (automaton.Expands found members) (automaton.testsOfSet members)
      (rows[index]?.getD [])

theorem Numbering.initial (automaton : Automaton κ) :
    automaton.Numbering [(automaton.closure (.ofList [automaton.start])).toList] #[] where
  first := rfl
  distinct := List.nodup_singleton _
  closed members member := by
    rw [List.mem_singleton] at member
    subst member
    exact automaton.is_closed_start
  within := Nat.zero_le _
  row index _ bound := absurd bound (Nat.not_lt_zero index)

theorem Numbering.expand {automaton : Automaton κ} {found after : List (List Nat)}
    {rows : Array (List (Transition κ))} (valid : automaton.Numbering found rows)
    {members : List Nat} (next : found[rows.size]? = some members) {row : List (Transition κ)}
    (expansion : automaton.Expansion members (automaton.testsOfSet members) found row after) :
    automaton.Numbering after (rows.push row) where
  first := get_of_prefix expansion.keeps valid.first
  distinct := expansion.distinct valid.distinct
  closed set member := by
    rcases expansion.origin set member with old | ⟨test, -, stepped⟩
    · exact valid.closed set old
    · exact is_closed_test_step stepped
  within := by
    have bound := (List.getElem?_eq_some_iff.1 next).1
    have grown := expansion.keeps.length_le
    rw [Array.size_push]
    omega
  row index set bound numbered := by
    rw [Array.size_push] at bound
    rw [Array.getElem?_push]
    by_cases isNew : index = rows.size
    · have same : members = set := by
        have kept := get_of_prefix expansion.keeps next
        rw [isNew, kept] at numbered
        exact Option.some.inj numbered
      subst same
      simpa only [isNew, if_true, Option.getD_some] using expansion.row
    · have before : index < rows.size := by omega
      have inFound : index < found.length := by
        have within := valid.within
        omega
      have kept := get_of_prefix expansion.keeps (List.getElem?_eq_getElem inFound)
      rw [kept] at numbered
      cases numbered
      rw [if_neg isNew]
      exact (valid.row index _ before (List.getElem?_eq_getElem inFound)).imp
        fun _ _ => Expands.mono expansion.keeps

/-- A run of the worklist stops because every set has its row, or because its count is used up. -/
theorem Numbering.run {automaton : Automaton κ} (count : Nat) {found final : List (List Nat)}
    {rows finalRows : Array (List (Transition κ))} (valid : automaton.Numbering found rows)
    (ran : automaton.expandSets count found rows = .ok (final, finalRows)) :
    automaton.Numbering final finalRows ∧
      (finalRows.size = final.length ∨ finalRows.size = rows.size + count) := by
  induction count generalizing found rows with
  | zero =>
      cases ran
      exact ⟨valid, Or.inr rfl⟩
  | succ count induction =>
      unfold expandSets at ran
      split at ran
      · rename_i finished
        cases ran
        have bound := List.getElem?_eq_none_iff.1 finished
        exact ⟨valid, Or.inl (Nat.le_antisymm valid.within bound)⟩
      · rename_i members next
        split at ran
        · cases ran
        · rename_i row after expanded
          have later := valid.expand next (expansion_of_expand_set expanded)
          obtain ⟨numbering, stopped⟩ := induction later ran
          refine ⟨numbering, stopped.imp_right ?_⟩
          intro used
          rw [used, Array.size_push]
          omega

/-- `dfa` has a state for each set in `found`, and its transitions follow the steps between the
sets. -/
structure SubsetOf (automaton dfa : Automaton κ) (found : List (List Nat)) : Prop where
  start : dfa.start = 0
  first : found[0]? = some (automaton.closure (.ofList [automaton.start])).toList
  distinct : found.Nodup
  closed : ∀ members ∈ found, automaton.IsClosed members
  count : dfa.stateCount = found.length
  row : ∀ index members, found[index]? = some members →
    List.Forall₂ (automaton.Expands found members) (automaton.testsOfSet members)
      (dfa.transitions index)
  accepting : ∀ index, dfa.isAccepting index = true ↔
    ∃ members, found[index]? = some members ∧
      ∃ state ∈ members, automaton.isAccepting state = true

def ofSets (automaton : Automaton κ) (found : List (List Nat))
    (rows : Array (List (Transition κ))) : Automaton κ where
  start := 0
  accepting := .ofList ((List.range found.length).filter fun index =>
    (found[index]?.getD []).any automaton.isAccepting)
  table := ⟨rows⟩

theorem Numbering.subset_of {automaton : Automaton κ} {found : List (List Nat)}
    {rows : Array (List (Transition κ))} (numbering : automaton.Numbering found rows)
    (complete : rows.size = found.length) :
    automaton.SubsetOf (automaton.ofSets found rows) found := by
  refine ⟨rfl, numbering.first, numbering.distinct, numbering.closed, complete, ?_, ?_⟩
  · intro index members numbered
    have inFound := (List.getElem?_eq_some_iff.1 numbered).1
    exact numbering.row index members (complete ▸ inFound) numbered
  · intro index
    rw [isAccepting, ← StateSet.mem_def, ofSets, StateSet.mem_of_list, List.mem_filter,
      List.mem_range, List.any_eq_true]
    constructor
    · intro accepted
      obtain ⟨inFound, state, member, accepting⟩ := accepted
      rw [List.getElem?_eq_getElem inFound] at member
      exact ⟨_, List.getElem?_eq_getElem inFound, state, member, accepting⟩
    · intro accepted
      obtain ⟨members, numbered, state, member, accepting⟩ := accepted
      refine ⟨(List.getElem?_eq_some_iff.1 numbered).1, state, ?_, accepting⟩
      rw [numbered]
      exact member

/-- The construction ends because every set has its row, not because its count is used up. -/
theorem numbering_of_to_dfa {automaton dfa : Automaton κ} (reduced : automaton.toDfa = .ok dfa) :
    ∃ found rows,
      automaton.expandSets (2 ^ (automaton.table.toList.length + 1))
        [(automaton.closure (.ofList [automaton.start])).toList] #[] = .ok (found, rows) ∧
      automaton.Numbering found rows ∧ rows.size = found.length ∧
      dfa = automaton.ofSets found rows := by
  unfold toDfa at reduced
  dsimp only at reduced
  split at reduced
  · cases reduced
  · rename_i found rows ran
    obtain ⟨numbering, stopped⟩ := Numbering.run _ (.initial automaton) ran
    have bound := automaton.length_closed_le numbering.distinct numbering.closed
    refine ⟨found, rows, ran, numbering, ?_, (Except.ok.inj reduced).symm⟩
    rcases stopped with complete | used
    · exact complete
    · have within := numbering.within
      have limit : Nat.pow 2 (automaton.table.toList.length + 1) =
        2 ^ (automaton.table.toList.length + 1) := rfl
      simp only [Array.size_empty, Nat.zero_add] at used
      omega

theorem subset_of_to_dfa {automaton dfa : Automaton κ} (reduced : automaton.toDfa = .ok dfa) :
    ∃ found, automaton.SubsetOf dfa found := by
  obtain ⟨found, rows, -, numbering, complete, rfl⟩ := numbering_of_to_dfa reduced
  exact ⟨found, numbering.subset_of complete⟩

end Automaton

end TreePattern
