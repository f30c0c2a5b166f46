import Statechart.Proofs.Acceptance.Spots

/-! The walk over a tidy machine reports nothing if and only if the IDs of the machine are distinct.
If it reports nothing, then it never stops short but at the entry of a state among the vertices,
which has no parts: so it meets the whole machine, and of two encounters with one ID the second was
taken for a listing of the first. If the IDs are distinct, then each ID that is met again is met in
the one listing that it may have. -/

namespace Statechart

namespace Walk

/-- What is known of the encounters of a walk that found nothing wrong. -/
structure Faithful (w : Walk) : Prop where
  known : ∀ x ∈ w.met, x ∈ w.survey.entries ∨ x.id ∈ w.survey.listed
  distinct : ∀ x ∈ w.met, ∀ y ∈ w.met, x.id = y.id → x = y ∨ x.IsOwnListing y

variable {m : StateMachine} {w : Walk} {x y : Encounter} {rest : List Task} {met : List Encounter}
  {s : Survey}

theorem Faithful.siblings (hf : Faithful ⟨.visit x :: rest, met, s⟩) (hm : m.IsTidy)
    (h : Reachable (.stateMachine m) [] ⟨.visit x :: rest, met, s⟩) (hy : y ∈ met)
    (hlisting : y.isListing x = true) :
    ∃ z ∈ m.tree, ∃ p ∈ z.element.parts, ∃ q ∈ z.element.parts, x = z.part p ∧ y = z.part q := by
  simp only [Encounter.isListing, Bool.and_eq_true, decide_eq_true_eq] at hlisting
  obtain ⟨hpair, howner⟩ := hlisting
  have htypes := Element.isListingPair_types hpair
  rcases h.ready.1 (.visit x) (.head _) with rfl | ⟨z, hz, p, hp, rfl, -, -⟩
  · rcases htypes with ⟨a, -, hv⟩ | ⟨a, ha, -⟩
    · cases hv
    · cases ha
  rcases h.ready.2 y hy with rfl | ⟨z', hz', q, hq, rfl, -, -⟩
  · rcases htypes with ⟨a, ha, -⟩ | ⟨a, -, hv⟩
    · cases ha
    · cases hv
  have hzid := hm.hasId (h.met_subset hz)
  have hzid' := hm.hasId (h.met_subset hz')
  rw [Encounter.owner_part, Encounter.owner_part, Encounter.knownId?_eq_some.2 ⟨hzid, rfl⟩,
    Encounter.knownId?_eq_some.2 ⟨hzid', rfl⟩] at howner
  -- the owners have one ID, and regions are never listed
  have heq : z' = z := by
    rcases hf.distinct z' hz' z hz (Option.some.inj howner) with heq | hown
    · exact heq
    · have hregion : ∃ r, z.element = .region r := by
        apply Element.eq_region_of_mem_parts hp
        rcases htypes with ⟨a, -, hv⟩ | ⟨a, ha, -⟩
        · right; rw [Encounter.element_part] at hv; rw [hv]; rfl
        · left; rw [Encounter.element_part] at ha; rw [ha]; rfl
      obtain ⟨r, hr⟩ := hregion
      rcases hown.types with ⟨-, htype⟩ | ⟨-, htype⟩ <;> rw [Encounter.type, hr] at htype <;>
        cases htype
  subst heq
  exact ⟨z', h.met_subset hz', p, hp, q, hq, rfl, rfl⟩

theorem Faithful.listing_of_taken (hf : Faithful ⟨.visit x :: rest, met, s⟩) (hm : m.IsTidy)
    (h : Reachable (.stateMachine m) [] ⟨.visit x :: rest, met, s⟩) {first : Encounter}
    (hfirst : s.entry? x.id = some first) (hclear : (s.repeated first x).defects = []) :
    first.IsOwnListing x ∧ x.type = .vertex ∧ x.id ∉ s.listed ∧
      s.repeated first x = { s with listed := x.id :: s.listed } := by
  have hmem : first ∈ met := h.entries_subset (Survey.entry?_eq_some hfirst).1
  have htree := h.met_subset hmem
  rcases s.repeated_cases first x with
    ⟨hsame, -⟩ | ⟨hlisting, hnew, heq⟩ | ⟨v, -, ho, heq⟩ | ⟨-, heq⟩
  · rcases hsame with hsame | hsame
    · have hxfirst := hm.eq_of_origin_eq htree h.next_mem hsame
      exact absurd (hxfirst ▸ hmem) h.not_met
    · exact absurd hsame (hm.not_isSamePoint htree h.next_mem)
  · obtain ⟨z, hz, p, hp, q, hq, rfl, rfl⟩ := hf.siblings hm h hmem hlisting
    have hown : (z.part q).IsOwnListing (z.part p) := by
      refine ⟨?_, by rw [Encounter.place_part, Encounter.place_part]⟩
      simp only [Encounter.isListing, Bool.and_eq_true] at hlisting
      exact hlisting.1
    refine ⟨hown, ?_, hnew, heq⟩
    rcases hown.types with ⟨-, hvertex⟩ | ⟨hvertex, hstate⟩
    · exact hvertex
    · -- the state would have been met before its entry among the vertices
      have horder := Encounter.parts_sublist_tree hz
        (Element.state_before_vertex hp hq hstate hvertex)
      exact absurd (h.precedes hmem) (not_sublist_swap (Encounter.nodup_tree _) horder)
  · obtain ⟨d, hd, -⟩ := h.refused _ ho
    rw [heq] at hclear
    rw [show s.defects = [] from hclear] at hd
    cases hd
  · rw [heq] at hclear
    simp [Survey.report] at hclear

theorem Faithful.snoc (hf : Faithful ⟨.visit x :: rest, met, s⟩) {s' : Survey} {agenda : List Task}
    (hentries : s.entries ⊆ s'.entries) (hlisted : s.listed ⊆ s'.listed)
    (hx : x ∈ s'.entries ∨ x.id ∈ s'.listed)
    (hearlier : ∀ y ∈ met, y.id = x.id → y.IsOwnListing x) :
    Faithful ⟨agenda, met ++ [x], s'⟩ := by
  constructor
  · intro y hy
    rcases List.mem_append.1 hy with hy | hy
    · exact (hf.known y hy).imp (fun h => hentries h) (fun h => hlisted h)
    · rw [List.mem_singleton.1 hy]
      exact hx
  · intro y hy z hz hyz
    rcases List.mem_append.1 hy with hy | hy <;> rcases List.mem_append.1 hz with hz | hz
    · exact hf.distinct y hy z hz hyz
    · rw [List.mem_singleton.1 hz] at hyz ⊢
      exact .inr (hearlier y hy hyz)
    · rw [List.mem_singleton.1 hy] at hyz ⊢
      exact .inr (hearlier z hz hyz.symm).symm
    · exact .inl ((List.mem_singleton.1 hy).trans (List.mem_singleton.1 hz).symm)

theorem Faithful.meet (hf : Faithful ⟨.visit x :: rest, met, s⟩) (hm : m.IsTidy)
    (h : Reachable (.stateMachine m) [] ⟨.visit x :: rest, met, s⟩)
    (hclear : (s.meet x).defects = []) (agenda : List Task) :
    (s.enters x = false → x.type = .vertex) ∧ Faithful ⟨agenda, met ++ [x], s.meet x⟩ := by
  rcases s.meet_cases x with ⟨hblank, -⟩ | ⟨-, hnew, heq⟩ | ⟨first, -, hfirst, heq⟩
  · exact absurd (hm.hasId h.next_mem) hblank
  · constructor
    · intro hpass
      rw [Survey.enters_iff.2 fun _ => hnew] at hpass
      cases hpass
    · rw [heq]
      refine hf.snoc (List.subset_append_left _ _) (List.Subset.refl _)
        (.inl (List.mem_append_right _ (.head _))) fun y hy hyx => ?_
      -- the ID of `y` has an entry, that of `x` has none
      obtain ⟨first, hfirst, hfid, -⟩ := h.accounted hy (hm.hasId (h.met_subset hy))
      exact absurd (hfid.trans hyx) (Survey.entry?_eq_none.1 hnew first hfirst)
  · rw [heq] at hclear
    obtain ⟨hown, hvertex, hnew, hlisted⟩ := hf.listing_of_taken hm h hfirst hclear
    refine ⟨fun _ => hvertex, ?_⟩
    rw [heq, hlisted]
    refine hf.snoc (List.Subset.refl _) (List.subset_cons_self _ _) (.inr (.head _))
      fun y hy hyx => ?_
    rcases hf.known y hy with hentry | hy'
    · obtain ⟨hmem, hfid⟩ := Survey.entry?_eq_some hfirst
      rwa [h.eq_of_id_eq hentry hmem (hyx.trans hfid.symm)]
    · exact absurd (hyx ▸ hy') hnew

/-- A walk without a report leaves nothing out. -/
theorem Reachable.faithful (hm : m.IsTidy) (h : Reachable (.stateMachine m) [] w)
    (hclear : w.survey.defects = []) :
    Faithful w ∧ w.met ++ w.agenda.flatMap Task.tree = m.tree := by
  induction h with
  | refl =>
    refine ⟨⟨?_, ?_⟩, by simp [start, Task.tree, StateMachine.tree]⟩
    · intro x hx
      cases hx
    · intro x hx
      cases hx
  | tail hreach hstep ih =>
    have hbefore := List.subset_nil.1 (hclear ▸ hstep.grows.defects)
    obtain ⟨hf, horder⟩ := ih hbefore
    cases hstep with
    | @pass x rest met s hpass =>
      obtain ⟨hvertex, hf⟩ := hf.meet hm hreach hclear rest
      refine ⟨hf, ?_⟩
      rw [← horder, List.flatMap_cons, Task.tree, Encounter.tree_of_leaf (.inl (hvertex hpass))]
      simp
    | @enter x rest met s henter =>
      refine ⟨(hf.meet hm hreach hclear _).2, ?_⟩
      rw [← horder, List.flatMap_cons, Task.tree, Encounter.tree_eq, List.flatMap_append,
        Encounter.flatMap_tasks]
      simp
    | follow =>
      refine ⟨⟨?_, hf.distinct⟩, ?_⟩
      · intro x hx
        simpa using hf.known x hx
      · simpa [Task.tree] using horder
    | settle =>
      refine ⟨⟨?_, hf.distinct⟩, ?_⟩
      · intro x hx
        simpa using hf.known x hx
      · simpa [Task.tree] using horder

/-- A state and a vertex with the ID were met. -/
def Paired (met : List Encounter) (id : String) : Prop :=
  ∃ y ∈ met, ∃ z ∈ met, y.id = id ∧ z.id = id ∧ y.type = .state ∧ z.type = .vertex

theorem Paired.mono {met met' : List Encounter} {id : String} (h : Paired met id)
    (hsub : met ⊆ met') : Paired met' id := by
  obtain ⟨y, hy, z, hz, hpair⟩ := h
  exact ⟨y, hsub hy, z, hsub hz, hpair⟩

/-- Where IDs are distinct, what is met next is new or the only listing of an earlier element. -/
theorem silent_meet (hm : m.IsTidy) (hids : m.HasDistinctIds)
    (h : Reachable (.stateMachine m) [] ⟨.visit x :: rest, met, s⟩) (hclear : s.defects = [])
    (hlisted : ∀ id ∈ s.listed, Paired met id) :
    (s.meet x).defects = [] ∧ ∀ id ∈ (s.meet x).listed, Paired (met ++ [x]) id := by
  have hkeep (id : String) (hid : id ∈ s.listed) : Paired (met ++ [x]) id :=
    (hlisted id hid).mono (List.subset_append_left _ _)
  have hown (y : Encounter) (hy : y ∈ met) (hyx : y.id = x.id) : y.IsOwnListing x := by
    refine hm.listing_of_id_eq hids (h.met_subset hy) h.next_mem ?_ hyx
    intro heq
    exact h.not_met (heq ▸ hy)
  rcases s.meet_cases x with ⟨hblank, -⟩ | ⟨-, hnew, heq⟩ | ⟨first, -, hfirst, heq⟩
  · exact absurd (hm.hasId h.next_mem) hblank
  · rw [heq]
    exact ⟨hclear, hkeep⟩
  · obtain ⟨hentry, hfid⟩ := Survey.entry?_eq_some hfirst
    have hmem : first ∈ met := h.entries_subset hentry
    have hpair : first.IsOwnListing x := hown first hmem hfid
    rw [heq]
    rcases s.repeated_cases first x with ⟨-, heq⟩ | ⟨-, -, heq⟩ | ⟨v, -, -, heq⟩ | ⟨htaken, -⟩
    · rw [heq]
      exact ⟨hclear, hkeep⟩
    · rw [heq]
      refine ⟨hclear, ?_⟩
      intro id hid
      rcases List.mem_cons.1 hid with rfl | hid
      · have hfirst : first ∈ met ++ [x] := List.mem_append_left _ hmem
        have hx : x ∈ met ++ [x] := List.mem_append_right _ (.head _)
        rcases hpair.types with ⟨hstate, hvertex⟩ | ⟨hvertex, hstate⟩
        · exact ⟨first, hfirst, x, hx, hfid, rfl, hstate, hvertex⟩
        · exact ⟨x, hx, first, hfirst, rfl, hfid, hstate, hvertex⟩
      · exact hkeep id hid
    · rw [heq]
      exact ⟨hclear, hkeep⟩
    · -- the ID was listed before, so a state and a vertex have it, and `x` is a third one
      have hlisting := StateMachine.isListing_of_own (h.met_subset hmem) h.next_mem hpair
      obtain ⟨y, hy, z, hz, hyid, hzid, hstate, hvertex⟩ := hlisted _ (htaken hlisting)
      have hyx := (hown y hy hyid).types
      have hzx := (hown z hz hzid).types
      rw [hstate] at hyx
      rw [hvertex] at hzx
      rcases hyx with ⟨-, hx⟩ | ⟨hno, -⟩
      · rcases hzx with ⟨hno, -⟩ | ⟨-, hx'⟩
        · cases hno
        · rw [hx] at hx'
          cases hx'
      · cases hno

theorem Reachable.silent (hm : m.IsTidy) (hids : m.HasDistinctIds)
    (h : Reachable (.stateMachine m) [] w) :
    w.survey.defects = [] ∧ ∀ id ∈ w.survey.listed, Paired w.met id := by
  induction h with
  | refl => exact ⟨rfl, fun id hid => by cases hid⟩
  | tail hreach hstep ih =>
    obtain ⟨hclear, hlisted⟩ := ih
    cases hstep with
    | pass => exact silent_meet hm hids hreach hclear hlisted
    | enter => exact silent_meet hm hids hreach hclear hlisted
    | follow => simpa using ⟨hclear, hlisted⟩
    | settle => simpa using ⟨hclear, hlisted⟩

end Walk

/-- The walk over a tidy machine reports nothing exactly if the IDs are distinct. -/
theorem StateMachine.IsTidy.survey_defects_eq_nil {m : StateMachine} (hm : m.IsTidy) :
    ((Element.stateMachine m).survey []).defects = [] ↔ m.HasDistinctIds := by
  obtain ⟨met, hreach⟩ := Walk.survey_reachable (.stateMachine m) []
  constructor
  · intro hclear x hx y hy hid
    obtain ⟨hf, horder⟩ := hreach.faithful hm hclear
    rw [hm.spots_eq] at hx hy
    rw [← horder] at hx hy
    rcases hf.distinct x (by simpa using hx) y (by simpa using hy) hid with heq | hown
    · exact .inl (congrArg Encounter.place heq)
    · exact .inr hown
  · intro hids
    exact (hreach.silent hm hids).1

end Statechart
