import Mathlib
import Statechart.Model.Build
import Statechart.Proofs.Survey.Awaited
import Statechart.Proofs.Survey.Sharing

/-! How many duplicates are reported in a region. A region with an ID that the walk goes down into
is walked once. Of its states and vertices with some ID each is counted, unless it is the listing of
a state that was counted: either it is the first encounter with the ID, or it is reported. -/

namespace Statechart

namespace Region

/-- The states and vertices of a region. -/
def members (r : Region) : List Part :=
  Part.ofList .member "States" Element.state r.states
    ++ Part.ofList .member "Vertices" RegionVertex.element r.vertices

/-- How many states with the ID can be paired with a vertex that lists them: of each shape, as many
as there are states or plain vertices, whichever are fewer. -/
def matched (r : Region) (id : String) : ℕ :=
  (((r.states.map (·.toVertex)).filter (·.id = id)).dedup.map fun v =>
    min (r.states.countP (·.toVertex = v)) (r.vertices.count (.vertex v))).sum

variable {r : Region} {p : Part} {id : String}

theorem parts_eq (r : Region) :
    (Element.region r).parts =
      r.members ++ Part.ofList .member "Transitions" Element.transition r.transitions := rfl

theorem mem_parts_of_mem_members (h : p ∈ r.members) : p ∈ (Element.region r).parts :=
  List.mem_append_left _ h

theorem mem_members_of_type (h : p ∈ (Element.region r).parts)
    (htype : p.element.type = .state ∨ p.element.type = .vertex) : p ∈ r.members := by
  rw [parts_eq] at h
  rcases List.mem_append.1 h with h | h
  · exact h
  · obtain ⟨i, hi, rfl⟩ := Part.mem_ofList.1 h
    simp [Element.type] at htype

theorem role_of_mem_members (h : p ∈ r.members) : p.role = .member := by
  rcases List.mem_append.1 h with h | h <;> obtain ⟨i, hi, rfl⟩ := Part.mem_ofList.1 h <;> rfl

theorem type_ne_of_mem_members (h : p ∈ r.members) : p.element.type ≠ .stateMachine := by
  intro htype
  have hrel := (Element.relation_of_mem_parts (mem_parts_of_mem_members h)).2 htype
  rw [role_of_mem_members h] at hrel
  cases hrel

end Region

namespace Encounter

variable {e : Element} {place : Locator} {x y : Encounter} {r : Region} {id : String}

/-- The states and vertices of a region that have an ID. -/
def membersWith (x : Encounter) (r : Region) (id : String) : List Encounter :=
  (r.members.filter (·.element.id = id)).map x.part

def memberPlaces (x : Encounter) (r : Region) (id : String) : List Locator :=
  (x.membersWith r id).map (·.place)

theorem mem_membersWith :
    y ∈ x.membersWith r id ↔ ∃ p ∈ r.members, p.element.id = id ∧ y = x.part p := by
  simp only [membersWith, List.mem_map, List.mem_filter, decide_eq_true_eq, and_assoc, @eq_comm _ y]

theorem nodup_membersWith (x : Encounter) (r : Region) (id : String) :
    (x.membersWith r id).Nodup := by
  have hsub : (r.members.filter (·.element.id = id)).Sublist (Element.region r).parts :=
    List.filter_sublist.trans (List.sublist_append_left _ _)
  refine (List.Nodup.of_map _ (Element.nodup_map_step_parts _)).sublist hsub |>.map_on ?_
  intro p hp q hq heq
  have hplace := congrArg Encounter.place heq
  have hstep : p.step = q.step := by simpa [part] using hplace
  exact Element.eq_of_step_eq (hsub.subset hp) (hsub.subset hq) hstep

/-- Members are known by their places. -/
theorem place_mem_memberPlaces (hx : x ∈ (ofRoot e place).tree) (hr : x.element = .region r)
    (hy : y ∈ (ofRoot e place).tree) : y.place ∈ x.memberPlaces r id ↔ y ∈ x.membersWith r id := by
  constructor
  · intro h
    obtain ⟨z, hz, hplace⟩ := List.mem_map.1 h
    obtain ⟨p, hp, -, rfl⟩ := mem_membersWith.1 hz
    have hmem := part_mem_tree hx (hr ▸ Region.mem_parts_of_mem_members hp)
    rwa [← eq_of_place_eq hmem hy hplace]
  · exact fun h => List.mem_map_of_mem h

end Encounter

namespace Walk

variable {e : Element} {place : Locator} {v w : Walk} {x y first : Encounter} {r : Region}
  {id : String}

/-- No other encounter has taken the ID of this one. -/
def Keeps (w : Walk) (x : Encounter) : Prop := ∀ z ∈ w.survey.entries, z.id = x.id → z = x

theorem Keeps.of_grows (h : w.Keeps x) (hgrows : Grows v w) : v.Keeps x :=
  fun z hz => h z (hgrows.entries hz)

/-- Bookkeeping is done only under IDs that are taken. -/
theorem Reachable.bookkept (h : Reachable e place w) :
    (∀ id ∈ w.survey.listed, ∃ first ∈ w.survey.entries, first.id = id) ∧
      ∀ o ∈ w.survey.refused, ∃ first ∈ w.survey.entries, first.id = o.2.id := by
  refine h.survey_induction (P := fun s => (∀ id ∈ s.listed, ∃ first ∈ s.entries, first.id = id) ∧
    ∀ o ∈ s.refused, ∃ first ∈ s.entries, first.id = o.2.id) (by simp) ?_ (by simp) (by simp)
  intro x rest met s _ ⟨hlisted, hrefused⟩
  rcases s.meet_cases x with ⟨-, h⟩ | ⟨-, -, h⟩ | ⟨first, -, hfirst, h⟩
  · rw [h]
    exact ⟨hlisted, hrefused⟩
  · rw [h]
    refine ⟨fun id hid => ?_, fun o ho => ?_⟩
    · obtain ⟨first, hfirst, hfid⟩ := hlisted id hid
      exact ⟨first, List.mem_append_left _ hfirst, hfid⟩
    · obtain ⟨first, hfirst, hfid⟩ := hrefused o ho
      exact ⟨first, List.mem_append_left _ hfirst, hfid⟩
  · obtain ⟨hmem, hfid⟩ := Survey.entry?_eq_some hfirst
    rw [h, (s.repeated_frame first x).1]
    rcases s.repeated_cases first x with ⟨-, h'⟩ | ⟨-, -, h'⟩ | ⟨v, -, -, h'⟩ | ⟨-, h'⟩ <;> rw [h']
    · exact ⟨hlisted, hrefused⟩
    · refine ⟨fun id hid => ?_, hrefused⟩
      rcases List.mem_cons.1 hid with rfl | hid
      · exact ⟨first, hmem, hfid⟩
      · exact hlisted id hid
    · exact ⟨hlisted, fun o ho => hrefused o (List.mem_of_mem_erase ho)⟩
    · refine ⟨by simpa [Survey.report] using hlisted, fun o ho => ?_⟩
      rcases Survey.mem_refused_refuse.1 ho with ho | ⟨state, hstate, rfl⟩
      · exact hrefused o ho
      · have hid : x.id = state.id := congrArg Element.id hstate
        exact ⟨first, hmem, hfid.trans hid⟩

/-- What arrived under the ID of the region came from the region. -/
theorem Keeps.member_of_owner (hkeeps : w.Keeps x) (hr : x.element = .region r)
    (hy : w.Arrived e place y) (howner : y.owner = some x.id) (hid : y.id = id)
    (htype : y.type = .state ∨ y.type = .vertex) : y ∈ x.membersWith r id := by
  rcases hy with rfl | ⟨z, -, p, hp, rfl, hentered, -⟩
  · cases howner
  · obtain ⟨hzid, hzx⟩ := Encounter.knownId?_eq_some.1 howner
    obtain rfl := hkeeps z (hentered hzid) hzx
    rw [hr] at hp
    exact Encounter.mem_membersWith.2 ⟨p, Region.mem_members_of_type hp htype, hid, rfl⟩

/-- What is known when a member of the region is about to be met. -/
structure Expected (s : Survey) (x y : Encounter) : Prop where
  entry : x ∈ s.entries
  fresh : ∀ first ∈ s.entries, first.origin ≠ y.origin
  point : ∀ first : Encounter, ¬ first.isSamePoint y = true
  listing : ∀ first ∈ s.entries, first.isListing y = true →
    ∃ t, first.element = .state t ∧ y.element = .vertex t.toVertex

theorem Reachable.expected {rest : List Task} {met : List Encounter} {s : Survey}
    (h : Reachable e place ⟨.visit y :: rest, met, s⟩) (he : e.Coherent)
    (hkeeps : ∀ z ∈ s.entries, z.id = x.id → z = x) (hx : x ∈ (Encounter.ofRoot e place).tree)
    (hr : x.element = .region r) (hid : x.element.HasId) (hy : y ∈ x.membersWith r id) :
    Expected s x y := by
  obtain ⟨p, hp, -, rfl⟩ := Encounter.mem_membersWith.1 hy
  have hpart : p ∈ x.element.parts := hr ▸ Region.mem_parts_of_mem_members hp
  have hdef := Element.definition?_eq_none (Region.type_ne_of_mem_members hp)
  -- the member is a part of `x` itself, which has the entry
  have hentry : x ∈ s.entries := by
    rcases h.ready.1 _ (.head _) with heq | ⟨z, hz, q, -, heq, hentered, -⟩
    · exact absurd (congrArg Encounter.origin heq).symm
        (Encounter.origin_ofRoot_ne_part e place x hdef)
    · have hplace := congrArg Encounter.place heq
      have hzx : z.place = x.place := (List.append_inj' hplace rfl).1.symm
      obtain rfl := Encounter.eq_of_place_eq (h.met_subset hz) hx hzx
      exact hentered hid
  have hfresh : ∀ first ∈ s.entries, first.origin ≠ (x.part p).origin := by
    intro first hfirst horigin
    have hmet := h.entries_subset hfirst
    rcases h.ready.2 first hmet with rfl | ⟨z, hz, q, hq, rfl, hentered, -⟩
    · exact Encounter.origin_ofRoot_ne_part e place x hdef horigin
    · obtain ⟨hzx, hstep⟩ := Encounter.origin_part_inj hdef horigin
      have helement := Encounter.element_eq_of_origin_eq he (h.met_subset hz) hx hzx
      have hzid : z.element.HasId := helement ▸ hid
      obtain rfl := hkeeps z (hentered hzid) (congrArg Element.id helement)
      obtain rfl := Element.eq_of_step_eq hq hpart hstep
      exact h.not_met hmet
  have hpoint : ∀ first : Encounter, ¬ first.isSamePoint (x.part p) = true := by
    intro first hpoint
    have hrole : (x.part p).role = .member := Region.role_of_mem_members hp
    unfold Encounter.isSamePoint at hpoint
    split at hpoint
    · simp [hrole, Role.isPoint] at hpoint
    · cases hpoint
  refine ⟨hentry, hfresh, hpoint, ?_⟩
  intro first hfirst hlisting
  have hmet := h.entries_subset hfirst
  simp only [Encounter.isListing, Bool.and_eq_true, decide_eq_true_eq] at hlisting
  obtain ⟨hpair, howner⟩ := hlisting
  have howner' : first.owner = some x.id :=
    howner.trans (Encounter.knownId?_eq_some.2 ⟨hid, rfl⟩)
  obtain ⟨q, hq, rfl⟩ := h.part_of_owner (h.ready.2 first hmet) hentry howner'
  exact Encounter.listing_of_precedes hx hq hpart (h.precedes hmet) hpair

def stateShapes (l : List Encounter) : Multiset Vertex :=
  ((l.map (·.element)).map Element.stateShapes).sum

def plainShapes (l : List Encounter) : Multiset Vertex :=
  ((l.map (·.element)).map Element.plainShapes).sum

/-- What was met of a region, what was counted and what is awaited are in balance. -/
structure Balanced (x : Encounter) (r : Region) (id : String) (w : Walk) : Prop where
  awaited : w.survey.awaited (some x.id) id =
    stateShapes (w.metAt (x.memberPlaces r id)) - plainShapes (w.metAt (x.memberPlaces r id))
  counted : w.survey.counted (x.memberPlaces r id) id =
    (w.metAt (x.memberPlaces r id)).countP (·.type ≠ .state)
      + (w.survey.awaited (some x.id) id).card

theorem Balanced.of_frame (h : Balanced x r id v) (hmet : w.met = v.met)
    (hentries : w.survey.entries = v.survey.entries) (hlisted : w.survey.listed = v.survey.listed)
    (hrefused : w.survey.refused = v.survey.refused)
    (hdefects : w.survey.defects = v.survey.defects) : Balanced x r id w := by
  have hentry : w.survey.entry? id = v.survey.entry? id := Survey.entry?_congr hentries
  have hawaited : w.survey.awaited (some x.id) id = v.survey.awaited (some x.id) id := by
    rw [Survey.awaited, Survey.refusedShapes, hrefused,
      Survey.unlistedShapes_congr (by rw [hlisted]) hentry]
    rfl
  have hcounted : w.survey.counted (x.memberPlaces r id) id =
      v.survey.counted (x.memberPlaces r id) id := by
    rw [Survey.counted, Survey.duplicatesAt, hdefects, Survey.firstAt_congr hentry]
    rfl
  have hmetAt : w.metAt (x.memberPlaces r id) = v.metAt (x.memberPlaces r id) := by
    rw [metAt, hmet, metAt]
  exact ⟨by rw [hawaited, hmetAt, h.awaited], by rw [hcounted, hmetAt, hawaited, h.counted]⟩

theorem stateShapes_append (l l' : List Encounter) :
    stateShapes (l ++ l') = stateShapes l + stateShapes l' := by
  simp [stateShapes]

theorem plainShapes_append (l l' : List Encounter) :
    plainShapes (l ++ l') = plainShapes l + plainShapes l' := by
  simp [plainShapes]

theorem stateShapes_perm {l l' : List Encounter} (h : l.Perm l') :
    stateShapes l = stateShapes l' :=
  ((h.map _).map _).sum_eq

theorem plainShapes_perm {l l' : List Encounter} (h : l.Perm l') :
    plainShapes l = plainShapes l' :=
  ((h.map _).map _).sum_eq

/-- When a state of a region is met, none of its vertices was. -/
theorem Reachable.no_vertex_before_state {rest : List Task} {met : List Encounter} {s : Survey}
    (h : Reachable e place ⟨.visit y :: rest, met, s⟩) (hx : x ∈ (Encounter.ofRoot e place).tree)
    (hr : x.element = .region r) (hy : y ∈ x.membersWith r id) (hstate : y.type = .state) :
    plainShapes (met.filter (·.place ∈ x.memberPlaces r id)) = 0 := by
  obtain ⟨p, hp, -, rfl⟩ := Encounter.mem_membersWith.1 hy
  refine List.sum_eq_zero ?_
  intro shapes hshapes
  rw [List.map_map] at hshapes
  obtain ⟨z, hz, rfl⟩ := List.mem_map.1 hshapes
  obtain ⟨hmet, hplace⟩ := List.mem_filter.1 hz
  have hmember := (Encounter.place_mem_memberPlaces hx hr (h.met_subset hmet)).1
    (by simpa using hplace)
  obtain ⟨q, hq, -, rfl⟩ := Encounter.mem_membersWith.1 hmember
  apply Element.plainShapes_of_type_ne
  intro hvertex
  have hp' : p ∈ x.element.parts := hr ▸ Region.mem_parts_of_mem_members hp
  have hq' : q ∈ x.element.parts := hr ▸ Region.mem_parts_of_mem_members hq
  have horder :=
    Encounter.parts_sublist_tree hx (Element.state_before_vertex hp' hq' hstate hvertex)
  exact not_sublist_swap (Encounter.nodup_tree _) (h.precedes hmet) horder

/-- A member of the region is let pass or counted. -/
theorem Reachable.counts {rest : List Task} {met : List Encounter} {s : Survey}
    (h : Reachable e place ⟨.visit y :: rest, met, s⟩) (hexpected : Expected s x y)
    (hid : x.element.HasId) (hblank : Text.isBlank id = false) (hy : y ∈ x.membersWith r id) :
    s.Counts (s.meet y) y (some x.id) id (x.memberPlaces r id) := by
  have hplace : y.place ∈ x.memberPlaces r id := List.mem_map_of_mem hy
  obtain ⟨p, -, rfl, rfl⟩ := Encounter.mem_membersWith.1 hy
  have howner : some x.id = (x.part p).owner := (Encounter.knownId?_eq_some.2 ⟨hid, rfl⟩).symm
  rw [howner]
  cases hfirst : s.entry? (x.part p).id with
  | none =>
    have hfree := Survey.entry?_eq_none.1 hfirst
    obtain ⟨hlisted, hrefused⟩ := h.bookkept
    refine Survey.counts_of_new hblank hplace hfirst ?_ ?_
    · intro hmem
      obtain ⟨first, hfirst, hfid⟩ := hlisted _ hmem
      exact hfree first hfirst hfid
    · intro o ho hoid
      obtain ⟨first, hfirst, hfid⟩ := hrefused o ho
      exact hfree first hfirst (hfid.trans hoid)
  | some first =>
    have hmem := (Survey.entry?_eq_some hfirst).1
    exact Survey.counts_of_entry hblank hplace hfirst (hexpected.fresh first hmem)
      (hexpected.point first) (hexpected.listing first hmem)

theorem metAt_snoc (agenda : List Task) (met : List Encounter) (s : Survey) (y : Encounter)
    (places : List Locator) :
    metAt ⟨agenda, met ++ [y], s⟩ places =
      met.filter (·.place ∈ places) ++ if y.place ∈ places then [y] else [] := by
  by_cases hy : y.place ∈ places <;> simp [metAt, hy]

theorem Balanced.meet {rest agenda : List Task} {met : List Encounter} {s : Survey}
    (hb : Balanced x r id ⟨.visit y :: rest, met, s⟩) (he : e.Coherent)
    (h : Reachable e place ⟨.visit y :: rest, met, s⟩)
    (hkeeps : Keeps ⟨.visit y :: rest, met, s⟩ x) (hx : x ∈ (Encounter.ofRoot e place).tree)
    (hr : x.element = .region r) (hid : x.element.HasId) (hblank : Text.isBlank id = false) :
    Balanced x r id ⟨agenda, met ++ [y], s.meet y⟩ := by
  have hplaces : y.place ∈ x.memberPlaces r id ↔ y ∈ x.membersWith r id :=
    Encounter.place_mem_memberPlaces hx hr h.next_mem
  obtain ⟨hawaited, hcounted⟩ := hb
  simp only [metAt] at hawaited hcounted
  by_cases hy : y ∈ x.membersWith r id
  · have hexpected := h.expected he hkeeps hx hr hid hy
    rcases h.counts hexpected hid hblank hy with ⟨v, hv, hpass, hsame⟩ | ⟨hnot, hcalls, hmore⟩
    · have hstate : y.element.stateShapes = 0 := by rw [hv]; rfl
      have hplain : y.element.plainShapes = {v} := by rw [hv]; rfl
      have htype : y.type ≠ .state := by simp [Encounter.type, hv, Element.type]
      constructor
      · rw [metAt_snoc, if_pos (hplaces.2 hy), stateShapes_append, plainShapes_append,
          tsub_add_eq_tsub_tsub]
        simp only [stateShapes, plainShapes, List.map_cons, List.map_nil, List.sum_singleton,
          hstate, hplain, add_zero, Multiset.sub_singleton] at hawaited ⊢
        rw [← hawaited, hpass, Multiset.erase_cons_head]
      · rw [metAt_snoc, if_pos (hplaces.2 hy), hsame, hcounted, hpass, List.countP_append,
          Multiset.card_cons]
        simp [htype]
        omega
    · constructor
      · rw [metAt_snoc, if_pos (hplaces.2 hy), stateShapes_append, plainShapes_append, hcalls,
          hawaited]
        by_cases hstate : y.type = .state
        · -- the vertices come later
          have hnone := h.no_vertex_before_state hx hr hy hstate
          have hplain : y.element.plainShapes = 0 := by
            apply Element.plainShapes_of_type_ne
            intro htype
            cases hstate.symm.trans htype
          rw [hnone]
          simp [stateShapes, plainShapes, hplain]
        · have hzero := Element.stateShapes_of_type_ne hstate
          rw [tsub_add_eq_tsub_tsub]
          simp only [stateShapes, plainShapes, List.map_cons, List.map_nil, List.sum_singleton,
            hzero, add_zero] at hawaited ⊢
          rw [← hawaited, Element.sub_plainShapes_of_not_mem hnot]
      · have hcard := Element.card_stateShapes y.element
        rw [metAt_snoc, if_pos (hplaces.2 hy), hmore, hcounted, hcalls, List.countP_append,
          Multiset.card_add, hcard]
        by_cases hstate : y.element.type = .state <;> simp [Encounter.type, hstate] <;> omega
  · have hplace : y.place ∉ x.memberPlaces r id := fun hmem => hy (hplaces.1 hmem)
    have hother : y.owner = some x.id → y.id = id → y.type ≠ .state ∧ y.type ≠ .vertex := by
      intro howner hyid
      have hmember := hkeeps.member_of_owner hr (h.ready.1 _ (.head _)) howner hyid
      exact ⟨fun htype => hy (hmember (.inl htype)), fun htype => hy (hmember (.inr htype))⟩
    constructor
    · rw [metAt_snoc, if_neg hplace, List.append_nil, Survey.awaited_meet_of_other hother, hawaited]
    · rw [metAt_snoc, if_neg hplace, List.append_nil, Survey.awaited_meet_of_other hother,
        Survey.counted_meet_of_not_mem hplace, hcounted]

theorem Reachable.balanced (h : Reachable e place w) (he : e.Coherent) (hkeeps : w.Keeps x)
    (hx : x ∈ (Encounter.ofRoot e place).tree) (hr : x.element = .region r)
    (hid : x.element.HasId) (hblank : Text.isBlank id = false) : Balanced x r id w := by
  induction h with
  | refl => exact ⟨rfl, rfl⟩
  | tail hreach hstep ih =>
    have hbefore := hkeeps.of_grows hstep.grows
    have hb := ih hbefore
    cases hstep with
    | pass _ => exact hb.meet he hreach hbefore hx hr hid hblank
    | enter _ => exact hb.meet he hreach hbefore hx hr hid hblank
    | follow => exact hb.of_frame rfl (by simp) (by simp) (by simp) (by simp)
    | settle => exact hb.of_frame rfl (by simp) (by simp) (by simp) (by simp)

/-- In the end all members of a region that was entered were met. -/
theorem Reachable.metAt_perm (h : Reachable e place w) (hdone : w.agenda = [])
    (hx : x ∈ w.survey.entries) (hr : x.element = .region r) :
    (w.metAt (x.memberPlaces r id)).Perm (x.membersWith r id) := by
  have hmet : w.met.Nodup :=
    (Encounter.nodup_tree _).sublist ((List.sublist_append_left _ _).trans h.sublist)
  have htree := h.met_subset (h.entries_subset hx)
  refine (List.perm_ext_iff_of_nodup (hmet.filter _) (x.nodup_membersWith r id)).2 ?_
  intro y
  rw [List.mem_filter, decide_eq_true_eq]
  constructor
  · rintro ⟨hy, hplace⟩
    exact (Encounter.place_mem_memberPlaces htree hr (h.met_subset hy)).1 hplace
  · intro hy
    obtain ⟨p, hp, -, rfl⟩ := Encounter.mem_membersWith.1 hy
    have hpart := (h.parts_met hdone hx (hr ▸ Region.mem_parts_of_mem_members hp)).2
    exact ⟨hpart, List.mem_map_of_mem hy⟩

end Walk

namespace RegionVertex

theorem type_element_ne (v : RegionVertex) : v.element.type ≠ .state := by cases v <;> nofun

theorem element_injective : Function.Injective RegionVertex.element := by
  intro u v h
  cases u <;> cases v <;> cases h <;> rfl

end RegionVertex

theorem Element.count_plainShapes (l : List Element) (v : Vertex) :
    (l.map plainShapes).sum.count v = l.count (.vertex v) := by
  induction l with
  | nil => rfl
  | cons e l ih =>
    rw [List.map_cons, List.sum_cons, Multiset.count_add, ih, List.count_cons, add_comm]
    congr 1
    cases e with
    | vertex u => simp [plainShapes, Multiset.count_singleton, @eq_comm _ v u]
    | _ => rfl

namespace Encounter

theorem map_element_membersWith (x : Encounter) (r : Region) (id : String) :
    (x.membersWith r id).map (·.element) =
      (r.states.map Element.state).filter (·.id = id) ++
        (r.vertices.map RegionVertex.element).filter (·.id = id) := by
  have helements : r.members.map (·.element) =
      r.states.map Element.state ++ r.vertices.map RegionVertex.element := by
    simp [Region.members, Part.map_element_ofList]
  rw [membersWith, List.map_map, ← List.filter_append, ← helements, List.filter_map]
  rfl

theorem stateShapes_membersWith (x : Encounter) (r : Region) (id : String) :
    Walk.stateShapes (x.membersWith r id) =
      ((r.states.map (·.toVertex)).filter (·.id = id) : List Vertex) := by
  have hstates : ∀ l : List State, (((l.map Element.state).filter (·.id = id)).map
      Element.stateShapes).sum = ((l.map (·.toVertex)).filter (·.id = id) : List Vertex) := by
    intro l
    induction l with
    | nil => rfl
    | cons t l ih =>
      have hid : (Element.state t).id = t.id := rfl
      by_cases ht : t.id = id
      · simp [hid, ht, Element.stateShapes, ih]
      · simp [hid, ht, ih]
  have hvertices : (((r.vertices.map RegionVertex.element).filter (·.id = id)).map
      Element.stateShapes).sum = 0 := by
    refine List.sum_eq_zero ?_
    intro shapes hshapes
    obtain ⟨e, he, rfl⟩ := List.mem_map.1 hshapes
    obtain ⟨v, -, rfl⟩ := List.mem_map.1 (List.mem_of_mem_filter he)
    cases v <;> rfl
  rw [Walk.stateShapes, map_element_membersWith,
    List.map_append, List.sum_append, hstates, hvertices, add_zero]

theorem count_plainShapes_membersWith (x : Encounter) (r : Region) (v : Vertex) :
    (Walk.plainShapes (x.membersWith r v.id)).count v = r.vertices.count (.vertex v) := by
  have hstates : (r.states.map Element.state).count (.vertex v) = 0 := by
    rw [List.count_eq_zero]
    intro hmem
    obtain ⟨t, -, ht⟩ := List.mem_map.1 hmem
    cases ht
  have hvertices : (r.vertices.map RegionVertex.element).count (.vertex v) =
      r.vertices.count (.vertex v) :=
    List.count_map_of_injective _ _ RegionVertex.element_injective (.vertex v)
  have hfilter (l : List Element) :
      (l.filter (·.id = v.id)).count (.vertex v) = l.count (.vertex v) :=
    List.count_filter (decide_eq_true rfl)
  rw [Walk.plainShapes, map_element_membersWith, Element.count_plainShapes, List.count_append,
    hfilter, hfilter, hstates, hvertices, zero_add]

theorem countP_membersWith (x : Encounter) (r : Region) (id : String) :
    (x.membersWith r id).countP (·.type ≠ .state) = r.vertices.countP (·.id = id) := by
  have helements : (x.membersWith r id).countP (·.type ≠ .state) =
      ((x.membersWith r id).map (·.element)).countP (·.type ≠ .state) := by
    rw [List.countP_map]
    rfl
  have hstates :
      ((r.states.map Element.state).filter (·.id = id)).countP (·.type ≠ .state) = 0 := by
    rw [List.countP_eq_zero]
    intro e he
    obtain ⟨t, -, rfl⟩ := List.mem_map.1 (List.mem_of_mem_filter he)
    simp [Element.type]
  have hvertices : ((r.vertices.map RegionVertex.element).filter (·.id = id)).countP
      (·.type ≠ .state) = r.vertices.countP (·.id = id) := by
    rw [List.countP_filter, List.countP_map]
    refine List.countP_congr ?_
    intro v _
    simp [RegionVertex.id_element, RegionVertex.type_element_ne]
  rw [helements, map_element_membersWith, List.countP_append, hstates, hvertices, zero_add]

end Encounter

/-- The states that are paired with a vertex are those whose shapes both sides have. -/
theorem Region.matched_eq (r : Region) (x : Encounter) (id : String) :
    r.matched id = (Walk.stateShapes (x.membersWith r id) ∩
      Walk.plainShapes (x.membersWith r id)).card := by
  set shapes := (r.states.map (·.toVertex)).filter (·.id = id) with hshapes
  have hstates : Walk.stateShapes (x.membersWith r id) = shapes := x.stateShapes_membersWith r id
  have hsub : ∀ v ∈ Walk.stateShapes (x.membersWith r id) ∩ Walk.plainShapes (x.membersWith r id),
      v ∈ shapes.dedup.toFinset := by
    intro v hv
    have hv' := (Multiset.mem_inter.1 hv).1
    rw [hstates] at hv'
    simpa using hv'
  rw [← Multiset.sum_count_eq_card hsub, List.sum_toFinset _ (List.nodup_dedup _), matched]
  refine congrArg List.sum (List.map_congr_left ?_)
  intro v hv
  have hmem : v ∈ shapes := List.mem_dedup.1 hv
  obtain rfl : v.id = id := by simpa using (List.mem_filter.1 hmem).2
  rw [Multiset.count_inter, x.count_plainShapes_membersWith r v, hstates, Multiset.coe_count]
  have hcount : shapes.count v = r.states.countP (·.toVertex = v) := by
    rw [hshapes, List.count_filter (by simp), List.count, List.countP_map]
    rfl
  rw [hcount]

namespace Element

variable {e : Element} {options : Options} {place : Locator} {x : Encounter} {r : Region}
  {id : String}

/-- Duplicates are reported by the walk. -/
theorem countP_duplicates (e : Element) (options : Options) (place : Locator)
    (places : List Locator) :
    ((e.integrityDefects options place).countP fun d => d.cause.isDuplicate ∧ d.place ∈ places) =
      (e.survey place).duplicatesAt places := by
  have hstage (d : Located Defect) (h : d.cause.isDuplicate = true) : d.cause.stage = .walk := by
    cases hcause : d.cause <;> rw [hcause] at h <;> first | rfl | cases h
  have hwalk := filter_stage_integrityDefects e options place .walk
  rw [Survey.duplicatesAt, ← show _ = (e.survey place).defects from hwalk, List.countP_filter]
  refine List.countP_congr fun d _ => ?_
  simp only [Bool.and_eq_true, decide_eq_true_eq]
  exact (and_iff_left_of_imp fun h => hstage d h.1).symm

/-- How often the states and vertices of a region that was entered are reported under an ID: as
often as there are such states and vertices, less those that are paired with each other, less the
one, if it is there, that has the entry for the ID. -/
theorem duplicates_of_region (he : e.Coherent) (hx : x ∈ (e.survey place).entries)
    (hr : x.element = .region r) (hid : Text.isBlank id = false) :
    ((e.integrityDefects options place).countP fun d =>
        d.cause.isDuplicate ∧ d.place ∈ x.memberPlaces r id) + r.matched id +
        (if (Survey.entry? (e.survey place) id).any (·.place ∈ x.memberPlaces r id) then 1 else 0) =
      r.states.countP (·.id = id) + r.vertices.countP (·.id = id) := by
  obtain ⟨met, hreach⟩ := Walk.survey_reachable e place
  have hkeeps : Walk.Keeps ⟨[], met, e.survey place⟩ x :=
    fun z hz hzx => hreach.eq_of_id_eq hz hx hzx
  have htree := hreach.met_subset (hreach.entries_subset hx)
  obtain ⟨hawaited, hcounted⟩ :=
    hreach.balanced he hkeeps htree hr (hreach.entries.1 x hx) hid
  have hperm : (Walk.metAt ⟨[], met, e.survey place⟩ (x.memberPlaces r id)).Perm
      (x.membersWith r id) := hreach.metAt_perm rfl hx hr
  rw [Walk.stateShapes_perm hperm, Walk.plainShapes_perm hperm] at hawaited
  rw [hperm.countP_eq, Encounter.countP_membersWith, hawaited] at hcounted
  have hsplit := congrArg Multiset.card (Multiset.sub_add_inter
    (Walk.stateShapes (x.membersWith r id)) (Walk.plainShapes (x.membersWith r id)))
  have hstates : (Walk.stateShapes (x.membersWith r id)).card = r.states.countP (·.id = id) := by
    rw [Encounter.stateShapes_membersWith, Multiset.coe_card, ← List.countP_eq_length_filter,
      List.countP_map]
    rfl
  rw [Multiset.card_add, ← Region.matched_eq, hstates] at hsplit
  rw [countP_duplicates]
  simp only [Survey.counted, Survey.firstAt] at hcounted
  omega

/-- Three states with one ID, two of them with one shape, and four vertices with that ID. -/
def crowd : Region where
  id := "r"
  states := [.simple "a" "", .simple "a" "", .simple "a" "other"]
  vertices :=
    [.vertex (State.simple "a" "").toVertex, .vertex (State.simple "a" "").toVertex,
      .vertex (State.simple "a" "").toVertex, .pseudostate (.initial "a")]

def crowded : Element := .stateMachine { id := "m", regions := [crowd] }

def crowdEncounter : Encounter :=
  (Encounter.ofRoot crowded []).part ⟨.member, .item "Regions" 0, .region crowd⟩

/-- Of the seven elements two are paired with vertices and one is the first. -/
theorem crowded_duplicates :
    (crowded.integrityDefects {} []).countP (fun d =>
      d.cause.isDuplicate ∧ d.place ∈ crowdEncounter.memberPlaces crowd "a") = 4 := by
  have hcoherent : crowded.Coherent := Unshared.coherent (unshared_of_tree (by cbv))
  have hx : crowdEncounter ∈ (crowded.survey []).entries := by
    have hget : (crowded.survey []).entries[1]? = some crowdEncounter := by cbv
    exact List.mem_of_getElem? hget
  have hid : Text.isBlank "a" = false := by decide
  have hcount := @duplicates_of_region crowded {} [] crowdEncounter crowd "a" hcoherent hx rfl hid
  have hmatched : crowd.matched "a" = 2 := by decide
  have hfirst : (Survey.entry? (crowded.survey []) "a").any
      (·.place ∈ crowdEncounter.memberPlaces crowd "a") = true := by cbv
  have hstates : crowd.states.countP (·.id = "a") = 3 := by decide
  have hvertices : crowd.vertices.countP (·.id = "a") = 4 := by decide
  rw [hmatched, hfirst, hstates, hvertices] at hcount
  simpa using hcount

end Element

end Statechart
