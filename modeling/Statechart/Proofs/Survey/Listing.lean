import Statechart.Proofs.Survey.Instance
import Statechart.Proofs.Survey.Record

/-! Listings. A region lists its states among its vertices once more, so a state may be met again as
a plain vertex of its region. A region with an ID is walked once and its states come first; so in a
listing the state has the entry, and one vertex only is taken for it without a report. -/

namespace Statechart

namespace Encounter

variable {e : Element} {place : Locator} {x y z : Encounter} {p q : Part}

theorem not_isListing_of_element_eq (h : x.element = y.element) : ¬ x.isListing y = true := by
  intro hlisting
  simp only [isListing, Bool.and_eq_true, h] at hlisting
  rcases Element.isListingPair_types hlisting.1 with ⟨s, hs, hv⟩ | ⟨s, hs, hv⟩ <;>
    rw [hs] at hv <;> cases hv

theorem not_isSamePoint_of_isListing (h : x.isListing y = true) : ¬ x.isSamePoint y = true := by
  intro hpoint
  exact not_isListing_of_element_eq (element_eq_of_isSamePoint hpoint) h

theorem listing_of_precedes (hz : z ∈ (ofRoot e place).tree) (hp : p ∈ z.element.parts)
    (hq : q ∈ z.element.parts)
    (horder : [z.part p, z.part q].Sublist (ofRoot e place).tree)
    (hpair : p.element.isListingPair q.element = true) :
    ∃ s, p.element = .state s ∧ q.element = .vertex s.toVertex := by
  rcases Element.isListingPair_types hpair with hpair | ⟨s, hs, hv⟩
  · exact hpair
  · have hparts := Element.state_before_vertex hq hp (by rw [hs]; rfl) (by rw [hv]; rfl)
    exact absurd horder (not_sublist_swap (nodup_tree _) (parts_sublist_tree hz hparts))

end Encounter

namespace Walk

variable {e : Element} {place : Locator} {w : Walk} {x y first : Encounter}

/-- Elements whose owners have one ID are parts of one element. -/
theorem Reachable.siblings (h : Reachable e place w) (hx : w.Arrived e place x)
    (hy : w.Arrived e place y) (howner : y.owner = x.owner) (hknown : x.owner.isSome) :
    ∃ z ∈ w.survey.entries, ∃ p ∈ z.element.parts, ∃ q ∈ z.element.parts,
      x = z.part p ∧ y = z.part q := by
  rcases hx with rfl | ⟨z, -, p, hp, rfl, hentered, -⟩
  · cases hknown
  · obtain ⟨id, hid⟩ := Option.isSome_iff_exists.1 hknown
    obtain ⟨hz, rfl⟩ := Encounter.knownId?_eq_some.1 hid
    obtain ⟨q, hq, rfl⟩ := h.part_of_owner hy (hentered hz) (howner.trans hid)
    exact ⟨z, hentered hz, p, hp, q, hq, rfl, rfl⟩

theorem Reachable.eq_of_owner_eq (h : Reachable e place w) {p q : Part}
    (hx : x ∈ (Encounter.ofRoot e place).tree) (hxp : w.Arrived e place (x.part p))
    (hy : y ∈ (Encounter.ofRoot e place).tree) (hyq : w.Arrived e place (y.part q))
    (hid : x.element.HasId) (howner : y.knownId? = x.knownId?) : x = y := by
  have hknown : (x.part p).owner.isSome := by
    rw [Encounter.owner_part, Encounter.knownId?_eq_some.2 ⟨hid, rfl⟩]
    rfl
  obtain ⟨z, hz, _, -, _, -, hxz, hyz⟩ := h.siblings hxp hyq howner hknown
  have hztree := h.met_subset (h.entries_subset hz)
  rw [Encounter.eq_of_part_eq hx hztree hxz, Encounter.eq_of_part_eq hy hztree hyz]

/-- The next encounter makes a listing with the entry for its ID: it is taken for the vertex of a
state that was not listed, or the ID is reported. -/
theorem listed_or_refused {s : Survey} (hid : x.element.HasId)
    (hfirst : s.entry? x.id = some first) (hlisting : first.isListing x = true)
    (horigin : first.origin ≠ x.origin) (hrefused : ∀ o ∈ s.refused, s.Refuses o.2.id) :
    (x.id ∉ s.listed ∧ x.id ∈ (s.meet x).listed) ∨ (s.meet x).Refuses x.id := by
  rw [Survey.meet_of_entry hid hfirst]
  rcases s.repeated_cases first x with ⟨hsame, -⟩ | ⟨-, hnew, heq⟩ | ⟨v, hv, hmem, heq⟩ | ⟨-, heq⟩
  · rcases hsame with hsame | hsame
    · exact absurd hsame horigin
    · exact absurd hsame (Encounter.not_isSamePoint_of_isListing hlisting)
  · exact .inl ⟨hnew, by rw [heq]; exact .head _⟩
  · right
    have hvid : x.id = v.id := congrArg Element.id hv
    obtain ⟨d, hd, hcause⟩ := hrefused _ hmem
    rw [heq]
    exact ⟨d, hd, hvid ▸ hcause⟩
  · right
    rw [heq]
    exact refuses_report _ x _ _ _

theorem subset_listed_meet (s : Survey) (x : Encounter) : s.listed ⊆ (s.meet x).listed := by
  rcases s.meet_cases x with ⟨-, h⟩ | ⟨-, -, h⟩ | ⟨first, -, -, h⟩ <;> rw [h]
  · exact List.Subset.refl _
  · exact List.Subset.refl _
  · rcases s.repeated_cases first x with ⟨-, h⟩ | ⟨-, -, h⟩ | ⟨v, -, -, h⟩ | ⟨-, h⟩ <;> rw [h]
    · exact List.Subset.refl _
    · exact List.subset_cons_self _ _
    · exact List.Subset.refl _
    · simp [Survey.report]

/-- What is known of the encounters that make a listing with the entry for their ID. -/
structure Listed (w : Walk) : Prop where
  noted : ∀ first ∈ w.survey.entries, ∀ x ∈ w.met, first.id = x.id → first.isListing x = true →
    x.id ∈ w.survey.listed ∨ w.survey.Refuses x.id
  once : ∀ first ∈ w.survey.entries, ∀ x ∈ w.met, ∀ y ∈ w.met, first.id = x.id →
    first.isListing x = true → first.id = y.id → first.isListing y = true →
    x = y ∨ w.survey.Refuses x.id

theorem Listed.meet {rest agenda : List Task} {met : List Encounter} {s : Survey}
    (hl : Listed ⟨.visit x :: rest, met, s⟩) (he : e.Coherent)
    (h : Reachable e place ⟨.visit x :: rest, met, s⟩)
    (hgrows : Grows ⟨.visit x :: rest, met, s⟩ ⟨agenda, met ++ [x], s.meet x⟩) :
    Listed ⟨agenda, met ++ [x], s.meet x⟩ := by
  -- an entry that makes a listing with an encounter was there before that encounter
  have older {first y : Encounter} (hfirst : first ∈ (s.meet x).entries) (hy : y ∈ met ++ [x])
      (hid : first.id = y.id) (hlisting : first.isListing y = true) : first ∈ s.entries := by
    rcases Survey.mem_entries_meet.1 hfirst with hold | ⟨rfl, hfid, hnew⟩
    · exact hold
    · rcases List.mem_append.1 hy with hy | hy
      · obtain ⟨z, hz, hzid, -⟩ := h.accounted hy ((Encounter.hasId_congr hid).1 hfid)
        exact absurd (hzid.trans hid.symm) (Survey.entry?_eq_none.1 hnew z hz)
      · obtain rfl := List.mem_singleton.1 hy
        exact absurd hlisting (Encounter.not_isListing_of_element_eq rfl)
  have next {first : Encounter} (hfirst : first ∈ s.entries) (hid : first.id = x.id)
      (hlisting : first.isListing x = true) :
      (x.id ∉ s.listed ∧ x.id ∈ (s.meet x).listed) ∨ (s.meet x).Refuses x.id := by
    refine listed_or_refused ((Encounter.hasId_congr hid).1 (h.entries.1 first hfirst))
      (hid ▸ h.entry?_eq_some hfirst) hlisting ?_ h.refused
    intro horigin
    have helement := Encounter.element_eq_of_origin_eq he (h.met_subset (h.entries_subset hfirst))
      h.next_mem horigin
    exact Encounter.not_isListing_of_element_eq helement hlisting
  constructor
  · intro first hfirst y hy hid hlisting
    have hold := older hfirst hy hid hlisting
    rcases List.mem_append.1 hy with hy | hy
    · exact (hl.noted first hold y hy hid hlisting).imp (fun hm => subset_listed_meet s x hm)
        hgrows.refuses
    · obtain rfl := List.mem_singleton.1 hy
      exact (next hold hid hlisting).imp_left And.right
  · -- where one of the two is the next encounter, the other one has been noted
    have second {first y : Encounter} (hfirst : first ∈ s.entries) (hy : y ∈ met)
        (hyid : first.id = y.id) (hylisting : first.isListing y = true) (hid : first.id = x.id)
        (hlisting : first.isListing x = true) : (s.meet x).Refuses x.id := by
      rcases hl.noted first hfirst y hy hyid hylisting with hlisted | hrefuses
      · refine (next hfirst hid hlisting).resolve_left ?_
        intro hnew
        exact hnew.1 (hid ▸ hyid ▸ hlisted)
      · exact hgrows.refuses (hid ▸ hyid ▸ hrefuses)
    intro first hfirst y hy z hz hyid hylisting hzid hzlisting
    have hold := older hfirst hy hyid hylisting
    rcases List.mem_append.1 hy with hymet | hylast <;>
      rcases List.mem_append.1 hz with hzmet | hzlast
    · exact (hl.once first hold y hymet z hzmet hyid hylisting hzid hzlisting).imp_right
        hgrows.refuses
    · obtain rfl := List.mem_singleton.1 hzlast
      exact .inr (hyid ▸ hzid ▸ second hold hymet hyid hylisting hzid hzlisting)
    · obtain rfl := List.mem_singleton.1 hylast
      exact .inr (second hold hzmet hzid hzlisting hyid hylisting)
    · exact .inl ((List.mem_singleton.1 hylast).trans (List.mem_singleton.1 hzlast).symm)

/-- Following and settling change nothing that the statement is about. -/
theorem Listed.of_frame {v w : Walk} (hl : Listed v) (hmet : w.met = v.met)
    (hentries : w.survey.entries = v.survey.entries) (hlisted : w.survey.listed = v.survey.listed)
    (hgrows : Grows v w) : Listed w := by
  constructor
  · intro first hfirst x hx hid hlisting
    rw [hentries] at hfirst
    rw [hmet] at hx
    rw [hlisted]
    exact (hl.noted first hfirst x hx hid hlisting).imp_right hgrows.refuses
  · intro first hfirst x hx y hy hxid hxlisting hyid hylisting
    rw [hentries] at hfirst
    rw [hmet] at hx hy
    exact (hl.once first hfirst x hx y hy hxid hxlisting hyid hylisting).imp_right hgrows.refuses

theorem Reachable.listed (he : e.Coherent) (h : Reachable e place w) : Listed w := by
  induction h with
  | refl =>
    constructor
    · intro first hfirst
      cases hfirst
    · intro first hfirst
      cases hfirst
  | tail hreach hstep ih =>
    have hgrows := hstep.grows
    cases hstep with
    | pass h => exact ih.meet he hreach hgrows
    | enter h => exact ih.meet he hreach hgrows
    | follow => exact ih.of_frame rfl (by simp) (by simp) hgrows
    | settle => exact ih.of_frame rfl (by simp) (by simp) hgrows

end Walk

end Statechart
