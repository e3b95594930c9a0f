import TreePattern.Proofs.Pattern.Profile

/-!
# Word sets that fit a profile

The two ends of a wired pattern are labelled with the words that may still follow. Labels fit a
profile if what the pattern reads between its ends, in front of a word that may follow its end, may
follow its beginning. Fitting labels can be carried inside a sequence, a repetition or a choice, and
the smallest ones are made of the words of the fused pattern.
-/

set_option autoImplicit false

namespace TreePattern

universe u v

variable {κ : Type u} {υ : Type v} [Matches κ υ]

open Pattern

namespace Profile

def Fits : Profile κ → (List υ → Prop) → (List υ → Prop) → Prop
  | loop bodies, before, after => before = after ∧ ∀ body ∈ bodies, body.Leads before before
  | through front core back, before, after =>
      (∀ body ∈ front, body.Leads before before) ∧ core.Leads before after ∧
        ∀ body ∈ back, body.Leads after after

theorem Fits.leads {profile : Profile κ} {before after : List υ → Prop}
    (fits : profile.Fits before after) : profile.pattern.Leads before after := by
  cases profile with
  | loop bodies =>
      obtain ⟨rfl, bodiesLead⟩ := fits
      exact (leads_choice_iff.2 bodiesLead).star
  | through front core back =>
      obtain ⟨frontLeads, coreLeads, backLeads⟩ := fits
      exact leads_concat_three (leads_choice_iff.2 frontLeads).star coreLeads
        (leads_choice_iff.2 backLeads).star

theorem exists_fits (profile : Profile κ) (words : List υ → Prop) :
    ∃ before after, profile.Fits before after ∧ (∀ word, words word → after word) ∧
      ∀ word, before word → profile.pattern.inFront words word := by
  cases profile with
  | loop bodies =>
      let label := (Pattern.star (.choice bodies)).inFront words
      refine ⟨label, label, ⟨rfl, ?_⟩, ?_, fun _ member => member⟩
      · exact leads_choice_iff.1 (leads_in_front_star (.choice bodies) words)
      · exact fun _ member => in_front_star_of_after (.choice bodies) member
  | through front core back =>
      let after := (Pattern.star (.choice back)).inFront words
      let before := (Pattern.star (.choice front)).inFront (core.inFront after)
      refine ⟨before, after, ⟨?_, ?_, ?_⟩, ?_, ?_⟩
      · exact leads_choice_iff.1 (leads_in_front_star (.choice front) (core.inFront after))
      · intro first rest once later
        exact in_front_star_of_after _ (leads_in_front core after first rest once later)
      · exact leads_choice_iff.1 (leads_in_front_star (.choice back) words)
      · exact fun _ member => in_front_star_of_after (.choice back) member
      · intro word split
        obtain ⟨one, -, rfl, once, two, -, rfl, again, three, rest, rfl, last, later⟩ := split
        refine ⟨one ++ (two ++ three), rest, ?_, ?_, later⟩
        · simp only [List.append_assoc]
        · exact describes_concat_three.2 ⟨one, _, rfl, once, two, three, rfl, again, last⟩

theorem Fits.of_follow {first second : Profile κ} {before after : List υ → Prop}
    (fits : (first.follow second).Fits before after) :
    ∃ middle, first.Fits before middle ∧ second.Fits middle after := by
  cases first with
  | loop bodies =>
      cases second with
      | loop others =>
          obtain ⟨rfl, leads⟩ := fits
          rw [List.forall_mem_append] at leads
          exact ⟨before, ⟨rfl, leads.1⟩, rfl, leads.2⟩
      | through front core back =>
          obtain ⟨leads, rest⟩ := fits
          rw [List.forall_mem_append] at leads
          exact ⟨before, ⟨rfl, leads.1⟩, leads.2, rest⟩
  | through front core back =>
      cases second with
      | loop bodies =>
          obtain ⟨frontLeads, coreLeads, leads⟩ := fits
          rw [List.forall_mem_append] at leads
          exact ⟨after, ⟨frontLeads, coreLeads, leads.1⟩, rfl, leads.2⟩
      | through front' core' back' =>
          obtain ⟨frontLeads, crossing, backLeads⟩ := fits
          -- The middle label: all that the shared loops and the second core can still read.
          let shared := Pattern.star (.choice (back ++ front'))
          let middle := shared.inFront (core'.inFront after)
          have loops := leads_choice_iff.1
            (leads_in_front_star (.choice (back ++ front')) (core'.inFront after))
          rw [List.forall_mem_append] at loops
          refine ⟨middle, ⟨frontLeads, ?_, loops.1⟩, loops.2, ?_, backLeads⟩
          · intro one rest once split
            obtain ⟨two, -, rfl, again, three, tail, rfl, last, later⟩ := split
            have described : (Pattern.concat [core, shared, core']).Describes
                (one ++ (two ++ three)) :=
              describes_concat_three.2 ⟨one, _, rfl, once, two, three, rfl, again, last⟩
            have member := crossing _ tail described later
            simpa only [List.append_assoc] using member
          · intro one rest once later
            exact in_front_star_of_after _ (leads_in_front core' after one rest once later)

theorem Fits.follow {first second : Profile κ} {before middle after : List υ → Prop}
    (fits : first.Fits before middle) (further : second.Fits middle after) :
    (first.follow second).Fits before after := by
  cases first with
  | loop bodies =>
      obtain ⟨rfl, leads⟩ := fits
      cases second with
      | loop others =>
          obtain ⟨rfl, others⟩ := further
          exact ⟨rfl, List.forall_mem_append.2 ⟨leads, others⟩⟩
      | through front core back =>
          exact ⟨List.forall_mem_append.2 ⟨leads, further.1⟩, further.2⟩
  | through front core back =>
      obtain ⟨frontLeads, coreLeads, backLeads⟩ := fits
      cases second with
      | loop others =>
          obtain ⟨rfl, others⟩ := further
          exact ⟨frontLeads, coreLeads, List.forall_mem_append.2 ⟨backLeads, others⟩⟩
      | through front' core' back' =>
          obtain ⟨frontLeads', coreLeads', backLeads'⟩ := further
          have shared := leads_choice_iff.2 (List.forall_mem_append.2 ⟨backLeads, frontLeads'⟩)
          exact ⟨frontLeads, leads_concat_three coreLeads shared.star coreLeads', backLeads'⟩

theorem Fits.joined {profile : Profile κ} {words : List υ → Prop}
    (fits : profile.Fits words words) : profile.joined.Fits words words := by
  cases profile with
  | loop bodies => exact fits
  | through front core back =>
      obtain ⟨frontLeads, coreLeads, backLeads⟩ := fits
      exact ⟨rfl, List.forall_mem_append.2
        ⟨frontLeads, List.forall_mem_cons.2 ⟨coreLeads, backLeads⟩⟩⟩

theorem Fits.of_joined {profile : Profile κ} {before after : List υ → Prop}
    (fits : profile.joined.Fits before after) :
    before = after ∧ profile.Fits before after := by
  cases profile with
  | loop bodies => exact ⟨fits.1, fits⟩
  | through front core back =>
      obtain ⟨rfl, leads⟩ := fits
      rw [List.forall_mem_append, List.forall_mem_cons] at leads
      exact ⟨rfl, leads.1, leads.2.1, leads.2.2⟩

end Profile

namespace Pattern

theorem exists_fits_of_choice {items : List (Pattern κ)} {before after : List υ → Prop}
    (fits : (Pattern.choice items).profile.Fits before after) {item : Pattern κ}
    (member : item ∈ items) :
    ∃ entry exit, item.profile.Fits entry exit ∧ (∀ word, after word → exit word) ∧
      ∀ word, entry word → before word := by
  obtain ⟨entry, exit, itemFits, above, below⟩ := item.profile.exists_fits after
  refine ⟨entry, exit, itemFits, above, ?_⟩
  intro word possible
  have leads := leads_choice_iff.1 fits.2.1 item.fused ((mem_fused_items ..).2 ⟨item, member, rfl⟩)
  exact leads.of_in_front (below word possible)

theorem fits_choice {items : List (Pattern κ)} {before after : List υ → Prop}
    (branches : ∀ item ∈ items, item.fused.Leads before after) :
    (Pattern.choice items).profile.Fits before after := by
  have alone : ∀ body ∈ ([] : List (Pattern κ)), ∀ words : List υ → Prop, body.Leads words words :=
    fun _ member => absurd member List.not_mem_nil
  refine ⟨fun body member => alone body member before, leads_choice_iff.2 ?_,
    fun body member => alone body member after⟩
  intro other member
  obtain ⟨item, inItems, rfl⟩ := (mem_fused_items ..).1 member
  exact branches item inItems

theorem leads_sequence_of_fits {items : List (Pattern κ)}
    (holds : ∀ item ∈ items, ∀ before after : List υ → Prop,
      item.profile.Fits before after → item.Leads before after)
    {before after : List υ → Prop} (fits : (profileSequence items).Fits before after)
    {word rest : List υ} (parts : DescribesAll items word) (later : after rest) :
    before (word ++ rest) := by
  induction items generalizing before word with
  | nil =>
      cases parts
      obtain ⟨rfl, -⟩ := fits
      exact later
  | cons item items induction =>
      obtain _ | ⟨part, others⟩ := parts
      obtain ⟨middle, itemFits, restFits⟩ := fits.of_follow
      rw [List.append_assoc]
      apply holds item (List.mem_cons_self ..) _ _ itemFits _ _ part
      exact induction (fun other member => holds other (List.mem_cons_of_mem item member))
        restFits others

theorem leads_of_fits (pattern : Pattern κ) :
    ∀ before after : List υ → Prop, pattern.profile.Fits before after →
      pattern.Leads before after := by
  induction pattern using item_induction with
  | literal test =>
      intro before after fits
      exact fits.2.1
  | concat items holds =>
      intro before after fits word rest described later
      cases described with
      | concat parts => exact leads_sequence_of_fits holds fits parts later
  | choice items holds =>
      intro before after fits word rest described later
      cases described with
      | choice member part =>
          obtain ⟨entry, exit, itemFits, above, below⟩ := exists_fits_of_choice fits member
          exact below _ (holds _ member entry exit itemFits word rest part (above rest later))
  | star body holds =>
      intro before after fits
      obtain ⟨rfl, bodyFits⟩ := Profile.Fits.of_joined fits
      exact (holds before before bodyFits).star
  | empty =>
      intro before after fits word rest described later
      obtain ⟨rfl, -⟩ := fits
      cases described
      exact later

theorem in_front_empty_iff {pattern : Pattern κ} {word : List υ} :
    pattern.inFront (· = []) word ↔ pattern.Describes word := by
  constructor
  · intro split
    obtain ⟨first, -, rfl, once, rfl⟩ := split
    rwa [List.append_nil]
  · intro described
    exact ⟨word, [], (List.append_nil word).symm, described, rfl⟩

/-- Fusing loses no word. -/
theorem fused_describes_of_describes {pattern : Pattern κ} {word : List υ}
    (described : pattern.Describes word) : pattern.fused.Describes word := by
  obtain ⟨before, after, fits, above, below⟩ := pattern.profile.exists_fits (υ := υ) (· = [])
  have member := leads_of_fits pattern before after fits word [] described (above [] rfl)
  rw [List.append_nil] at member
  exact in_front_empty_iff.1 (below word member)

end Pattern

end TreePattern
