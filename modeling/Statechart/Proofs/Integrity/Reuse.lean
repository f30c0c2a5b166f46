import Mathlib
import Statechart.Model.Build
import Statechart.Proofs.Integrity.Stage
import Statechart.Proofs.Survey.Arrival
import Statechart.Proofs.Survey.Sharing

/-! Which IDs may be used again. An ID is not reported as a duplicate if and only if everything met
under it passes for the first element with it: it is that element once more, the same point, or the
one listing of a state. So for two elements with one ID it can be said exactly when they go
unreported. -/

namespace Statechart

/-- An element was reported as a duplicate with this ID. -/
def Defects.ReportsDuplicate (l : Defects) (id : String) : Prop :=
  ∃ d ∈ l, ∃ type place, d.cause = .duplicateId id type place

theorem Defects.not_reportsDuplicate {l : Defects} (h : l.all (!·.cause.isDuplicate) = true)
    (id : String) : ¬ l.ReportsDuplicate id := by
  rintro ⟨d, hd, type, first, hcause⟩
  have := List.all_eq_true.1 h d hd
  rw [hcause] at this
  cases this

/-- Whether one of two encounters with one ID, the first of all that were met, covers the other. -/
def Encounter.Covers (met : List Encounter) (first x : Encounter) : Prop :=
  first.origin = x.origin ∨ first.isSamePoint x = true ∨
    first.isListing x = true ∧ ∀ y ∈ met, y.id = x.id → first.isListing y = true → y = x

namespace Element

variable {e : Element} {options : Options} {place : Locator} {x y z z' first : Encounter}
  {a : Arrival} {log log' : List Arrival} {id : String}

theorem mem_survey_of_isDuplicate {d : Located Defect} (hd : d ∈ e.integrityDefects options place)
    (hdup : d.cause.isDuplicate = true) : d ∈ (e.survey place).defects := by
  have hstage : d.cause.stage = .walk := by
    cases hcause : d.cause <;> rw [hcause] at hdup <;> first | rfl | cases hdup
  rw [mem_integrityDefects_iff_stage, hstage] at hd
  exact hd

theorem reportsDuplicate_iff :
    (e.integrityDefects options place).ReportsDuplicate id ↔ (e.survey place).Refuses id := by
  constructor
  · rintro ⟨d, hd, type, first, hcause⟩
    exact ⟨d, mem_survey_of_isDuplicate hd (by rw [hcause]; rfl), type, first, hcause⟩
  · rintro ⟨d, hd, hcause⟩
    exact ⟨d, mem_integrityDefects.2 (.inl hd), hcause⟩

theorem covers_of_not_refuses (he : e.Coherent) (hnot : ¬ (e.survey place).Refuses id)
    (hfirst : e.first? place id = some first) (hx : x ∈ e.encounters place) (hxid : x.id = id) :
    first.Covers (e.encounters place) x := by
  have hreach := Walk.reachable_survey e place
  obtain ⟨hmem, hfid⟩ := Survey.entry?_eq_some hfirst
  have hsame : first.id = x.id := hfid.trans hxid.symm
  have hid : x.element.HasId := (Encounter.hasId_congr hsame).1 (hreach.entries.1 first hmem)
  obtain ⟨first', hmem', hfid', haccounts⟩ := hreach.accounted hx hid
  obtain rfl := hreach.eq_of_id_eq hmem' hmem (hfid'.trans hsame.symm)
  rcases haccounts with rfl | horigin | hpoint | hlisting | hrefused
  · exact .inl rfl
  · exact .inl horigin
  · exact .inr (.inl hpoint)
  · refine .inr (.inr ⟨hlisting, fun y hy hyid hylisting => ?_⟩)
    have honce := (hreach.listed he).once first' hmem x hx y hy hsame hlisting
      (hsame.trans hyid.symm) hylisting
    exact (honce.resolve_right fun h => hnot (hxid ▸ h)).symm
  · exact absurd (hxid ▸ hrefused) hnot

theorem not_covers_of_duplicate (h : e.arrivals place = log ++ a :: log')
    (hr : a.recurrence? = some .duplicate)
    (hfirst : e.first? place a.encounter.id = some first) :
    ¬ first.Covers (e.encounters place) a.encounter := by
  obtain ⟨first', -, hentry, hr⟩ := Arrival.recurrence?_eq_some.1 hr
  obtain rfl := Option.some.inj ((Walk.first?_of_arrival h hentry).symm.trans hfirst)
  obtain ⟨horigin, hpoint, hlisted, -⟩ := Survey.recurrence_eq_duplicate.1 hr
  rintro (hsame | hsame | ⟨hlisting, honce⟩)
  · exact horigin hsame
  · rw [hpoint] at hsame
    cases hsame
  · -- the listing that came before is another encounter
    obtain ⟨b, hb, hbid, hbr⟩ := (Walk.mem_listed_of_arrival h).1 (hlisted hlisting)
    obtain ⟨bfirst, -, hbfirst, hbr⟩ := Arrival.recurrence?_eq_some.1 hbr
    have hbmem : b ∈ e.arrivals place := h ▸ List.mem_append_left _ hb
    obtain ⟨log₁, log₂, hblog⟩ := List.append_of_mem hbmem
    have hblast := Walk.first?_of_arrival hblog (hbid ▸ hbfirst)
    obtain rfl := Option.some.inj (hblast.symm.trans hfirst)
    have htells := b.survey.tells_recurrence bfirst b.encounter
    rw [hbr] at htells
    have heq := honce b.encounter (List.mem_map_of_mem hbmem) hbid htells.1
    exact Walk.encounter_ne_of_mem h hb heq

/-- An ID is not reported if and only if the first encounter with it covers all others. -/
theorem not_refuses_iff (he : e.Coherent) :
    ¬ (e.survey place).Refuses id ↔
      ∀ first, e.first? place id = some first →
        ∀ x ∈ e.encounters place, x.id = id → first.Covers (e.encounters place) x := by
  constructor
  · exact fun hnot first hfirst x hx hxid => covers_of_not_refuses he hnot hfirst hx hxid
  · rintro hcovers ⟨d, hd, type, dplace, hcause⟩
    obtain ⟨a, ha, hda⟩ := Walk.mem_survey_defects.1 hd
    obtain ⟨log, log', hlog⟩ := List.append_of_mem ha
    obtain ⟨-, -, ⟨-, hnoId⟩ | ⟨first, hid, hfirst, hr, hda⟩⟩ := Arrival.mem_defects.1 hda
    · rw [hcause] at hnoId
      cases hnoId
    obtain ⟨rfl, -⟩ := Defect.duplicateId.inj (hcause.symm.trans hda)
    have hlast := Walk.first?_of_arrival hlog hfirst
    refine not_covers_of_duplicate hlog ?_ hlast
      (hcovers first hlast a.encounter (List.mem_map_of_mem ha) rfl)
    exact Arrival.recurrence?_eq_some.2 ⟨first, hid, hfirst, hr⟩

theorem not_reportsDuplicate_iff (he : e.Coherent) :
    ¬ (e.integrityDefects options place).ReportsDuplicate id ↔
      ∀ first, e.first? place id = some first →
        ∀ x ∈ e.encounters place, x.id = id → first.Covers (e.encounters place) x := by
  rw [reportsDuplicate_iff, not_refuses_iff he]

theorem point_of_covers {met : List Encounter}
    (hpoint : first.element.type = .pseudostate ∨ x.element.type = .pseudostate)
    (h : first.Covers met x) : first.origin = x.origin ∨ first.isSamePoint x = true := by
  rcases h with horigin | hsame | ⟨hlisting, -⟩
  · exact .inl horigin
  · exact .inr hsame
  · rcases Encounter.types_of_isListing hlisting with ⟨hf, hx⟩ | ⟨hf, hx⟩ <;>
      simp [hf, hx] at hpoint

theorem type_of_isPoint (hx : x ∈ e.encounters place) (hpoint : x.role.isPoint = true) :
    x.element.type = .pseudostate := by
  obtain ⟨p, hp⟩ := Encounter.pseudostate_of_isPoint (encounters_subset_tree hx) hpoint
  rw [hp]
  rfl

theorem referencePoint_of_covers (hx : x ∈ e.encounters place) (hy : y ∈ e.encounters place)
    (hxrole : x.role = .machinePoint) (hyrole : y.role = .machinePoint)
    (hne : x.origin ≠ y.origin) (hxc : first.Covers (e.encounters place) x)
    (hyc : first.Covers (e.encounters place) y) : first.role = .referencePoint := by
  have named {u : Encounter} (hu : u.role = .machinePoint) (h : first.isSamePoint u = true) :
      first.role = .referencePoint := by
    obtain ⟨-, -, -, -, -, hroles⟩ := Encounter.isSamePoint_iff.1 h
    exact hroles.resolve_right (by simp [hu])
  have hxtype := type_of_isPoint hx (by rw [hxrole]; rfl)
  have hytype := type_of_isPoint hy (by rw [hyrole]; rfl)
  rcases point_of_covers (.inr hxtype) hxc with hxo | hxs
  · rcases point_of_covers (.inr hytype) hyc with hyo | hys
    · exact absurd (hxo.symm.trans hyo) hne
    · exact named hyrole hys
  · exact named hxrole hxs

theorem eq_point_of_covers (he : e.Coherent) (hfirst : first ∈ e.encounters place)
    (hx : x ∈ e.encounters place) (hpoint : first.role.isPoint = true)
    (h : first.Covers (e.encounters place) x) :
    x.element = first.element ∧ x.role.isPoint = true := by
  have hftype := type_of_isPoint hfirst hpoint
  rcases point_of_covers (.inl hftype) h with horigin | hsame
  · have helement := Encounter.element_eq_of_origin_eq he (encounters_subset_tree hx)
      (encounters_subset_tree hfirst) horigin.symm
    have hdef : x.element.definition? = none :=
      definition?_eq_none (by simp [helement, hftype])
    have hrole := Encounter.role_eq_of_origin_eq he (encounters_subset_tree hfirst)
      (encounters_subset_tree hx) hdef horigin
    exact ⟨helement, hrole ▸ hpoint⟩
  · obtain ⟨q, hq, hxq, -, hxpoint, -⟩ := Encounter.isSamePoint_iff.1 hsame
    exact ⟨hxq.trans hq.symm, hxpoint⟩

/-- Two points that machines list under one ID are reported, unless a connection point reference
comes to the point before them and nothing but this point is met under the ID. -/
theorem relisted_point_reported_iff (he : e.Coherent) (hx : x ∈ e.encounters place)
    (hy : y ∈ e.encounters place) (hxrole : x.role = .machinePoint)
    (hyrole : y.role = .machinePoint) (hid : x.element.HasId) (hsame : x.id = y.id)
    (hne : x.origin ≠ y.origin) :
    (e.integrityDefects options place).ReportsDuplicate x.id ↔
      ¬ ∃ first, e.first? place x.id = some first ∧ first.role = .referencePoint ∧
        ∀ u ∈ e.encounters place, u.id = x.id →
          u.element = first.element ∧ u.role.isPoint = true := by
  rw [← not_iff_not, not_not, not_reportsDuplicate_iff he]
  obtain ⟨first, hfmet, hfirst, -⟩ := exists_first hx hid
  constructor
  · intro hcovers
    have hall := hcovers first hfirst
    have hrole := referencePoint_of_covers hx hy hxrole hyrole hne (hall x hx rfl)
      (hall y hy hsame.symm)
    refine ⟨first, hfirst, hrole, fun u hu huid => ?_⟩
    exact eq_point_of_covers he hfmet hu (by rw [hrole]; rfl) (hall u hu huid)
  · rintro ⟨first', hfirst', hrole, hall⟩ f hf u hu huid
    obtain rfl := Option.some.inj (hfirst'.symm.trans hf)
    obtain rfl := Option.some.inj (hfirst.symm.trans hfirst')
    have hpoint : first.role.isPoint = true := by rw [hrole]; rfl
    obtain ⟨p, hp⟩ := Encounter.pseudostate_of_isPoint (encounters_subset_tree hfmet) hpoint
    obtain ⟨helement, hupoint⟩ := hall u hu huid
    exact .inr (.inl (Encounter.isSamePoint_iff.2
      ⟨p, hp, helement.trans hp, hpoint, hupoint, .inl hrole⟩))

def gate : Pseudostate := .named "in" "" .entryPoint

/-- A state that stands for a machine with two entry points that have one ID. -/
def station (connections : List ConnectionPointReference) : Element := .stateMachine {
  id := "m"
  regions := [{
    id := "r"
    states := [{
      id := "s"
      type := .state
      isSubmachineState := true
      connections := connections
      submachine := some { id := "n", connectionPoints := [gate, gate] } }] }] }

/-- A connection point reference to the first of the two. -/
def booth : ConnectionPointReference := { id := "c", type := .pseudostate, entry := [gate] }

def stationPoint (i : ℕ) : Origin where
  steps := [.item "Regions" 0, .item "States" 0, .field "Submachine", .item "ConnectionPoints" i]

/-- Where no connection point reference names the points, the second one is reported. -/
theorem station_reported : ((station []).integrityDefects {} []).ReportsDuplicate "in" := by
  have hcoherent : (station []).Coherent := Unshared.coherent (unshared_of_tree (by cbv))
  obtain ⟨x, hx, hxid, hxrole, hxo⟩ : ∃ x, ((station []).encounters [])[4]? = some x ∧
      x.id = "in" ∧ x.role = .machinePoint ∧ x.origin = stationPoint 0 := ⟨_, by cbv, rfl, rfl, rfl⟩
  obtain ⟨y, hy, hyid, hyrole, hyo⟩ : ∃ y, ((station []).encounters [])[5]? = some y ∧
      y.id = "in" ∧ y.role = .machinePoint ∧ y.origin = stationPoint 1 := ⟨_, by cbv, rfl, rfl, rfl⟩
  have hne : x.origin ≠ y.origin := by
    rw [hxo, hyo]
    decide
  have hid : x.element.HasId := by
    rw [HasId, show x.element.id = "in" from hxid]
    decide
  rw [← hxid]
  refine (relisted_point_reported_iff hcoherent (List.mem_of_getElem? hx)
    (List.mem_of_getElem? hy) hxrole hyrole hid (hxid.trans hyid.symm) hne).2 ?_
  rw [hxid]
  rintro ⟨first, hfirst, hrole, -⟩
  obtain ⟨first', hfirst', hrole'⟩ : ∃ first, (station []).first? [] "in" = some first ∧
      first.role = .machinePoint := ⟨_, by cbv, rfl⟩
  obtain rfl := Option.some.inj (hfirst.symm.trans hfirst')
  cases hrole.symm.trans hrole'

/-- Where a reference names the first of the points, both are let pass. -/
theorem station_unreported :
    ∃ x ∈ (station [booth]).encounters [], ∃ y ∈ (station [booth]).encounters [],
      x.role = .machinePoint ∧ y.role = .machinePoint ∧ x.element.HasId ∧ x.id = y.id ∧
        x.origin ≠ y.origin ∧
        ¬ ((station [booth]).integrityDefects {} []).ReportsDuplicate x.id := by
  obtain ⟨x, hx, hxid, hxrole, hxo⟩ : ∃ x, ((station [booth]).encounters [])[6]? = some x ∧
      x.id = "in" ∧ x.role = .machinePoint ∧ x.origin = stationPoint 0 := ⟨_, by cbv, rfl, rfl, rfl⟩
  obtain ⟨y, hy, hyid, hyrole, hyo⟩ : ∃ y, ((station [booth]).encounters [])[7]? = some y ∧
      y.id = "in" ∧ y.role = .machinePoint ∧ y.origin = stationPoint 1 := ⟨_, by cbv, rfl, rfl, rfl⟩
  have hid : x.element.HasId := by
    rw [HasId, show x.element.id = "in" from hxid]
    decide
  refine ⟨x, List.mem_of_getElem? hx, y, List.mem_of_getElem? hy, hxrole, hyrole, hid,
    hxid.trans hyid.symm, ?_, ?_⟩
  · rw [hxo, hyo]
    decide
  · exact Defects.not_reportsDuplicate (by cbv) _

/-- The survey comes to an element and to this part of it. -/
structure Meets (e : Element) (place : Locator) (z : Encounter) (p : Part) : Prop where
  owner : z ∈ e.encounters place
  part : p ∈ z.element.parts
  met : z.part p ∈ e.encounters place

theorem Meets.owner_eq_iff (he : e.Coherent) {p q : Part} (hx : e.Meets place z p)
    (hy : e.Meets place z' q) (hdef : p.element.definition? = none) (hne : z.origin ≠ z'.origin)
    (hfirst : first ∈ e.encounters place) (horigin : first.origin = (z.part p).origin) :
    first.owner = (z'.part q).owner ↔ ¬ z.element.HasId ∧ ¬ z'.element.HasId := by
  have hreach := Walk.reachable_survey e place
  obtain ⟨y, hytree, hyo, hye, rfl⟩ := Encounter.exists_part_of_origin_eq he
    (encounters_subset_tree hx.owner) hx.part hdef (encounters_subset_tree hfirst) horigin
  rw [Encounter.owner_part, Encounter.owner_part, ← hye]
  constructor
  · intro hknown
    have hids : y.element.HasId ↔ z'.element.HasId := by
      rw [← not_iff_not, ← Encounter.knownId?_eq_none, ← Encounter.knownId?_eq_none, hknown]
    suffices h : ¬ z'.element.HasId from ⟨hids.not.2 h, h⟩
    intro hid
    have heq := hreach.eq_of_owner_eq (encounters_subset_tree hy.owner) (hreach.ready.2 _ hy.met)
      hytree (hreach.ready.2 _ hfirst) hid hknown
    exact hne (by rw [← hyo, heq])
  · rintro ⟨hblank, hblank'⟩
    rw [Encounter.knownId?_eq_none.2 hblank, Encounter.knownId?_eq_none.2 hblank']

theorem Meets.covers_foreign_iff (he : e.Coherent) {p q : Part} (hx : e.Meets place z p)
    (hy : e.Meets place z' q) (hne : z.origin ≠ z'.origin) (hsame : p.element.id = q.element.id)
    (htypes : p.element.type = .state ∧ q.element.type = .vertex ∨
      p.element.type = .vertex ∧ q.element.type = .state)
    (hfirst : first ∈ e.encounters place) (horigin : first.origin = (z.part p).origin) :
    (∀ u ∈ e.encounters place, u.id = p.element.id → first.Covers (e.encounters place) u) ↔
      ¬ z.element.HasId ∧ ¬ z'.element.HasId ∧ p.element.isListingPair q.element = true ∧
        ∀ u ∈ e.encounters place, u.id = p.element.id →
          u.origin = (z.part p).origin ∨ u = z'.part q := by
  have hdef : p.element.definition? = none :=
    Element.definition?_eq_none (by rcases htypes with ⟨h, -⟩ | ⟨h, -⟩ <;> simp [h])
  have element {u : Encounter} (hu : u ∈ e.encounters place)
      (h : u.origin = (z.part p).origin) : u.element = p.element :=
    Encounter.element_eq_of_origin_eq he (encounters_subset_tree hu)
      (encounters_subset_tree hx.met) h
  have hfelement := element hfirst horigin
  have hlisting : first.isListing (z'.part q) = true ↔
      p.element.isListingPair q.element = true ∧ ¬ z.element.HasId ∧ ¬ z'.element.HasId := by
    rw [Encounter.isListing_iff, hfelement, hx.owner_eq_iff he hy hdef hne hfirst horigin]
    rfl
  have hpoint {u : Encounter} : ¬ first.isSamePoint u = true := by
    intro h
    have hftype := (Encounter.types_of_isSamePoint h).1
    rw [hfelement] at hftype
    rcases htypes with ⟨h, -⟩ | ⟨h, -⟩ <;> cases h.symm.trans hftype
  constructor
  · intro hcovers
    rcases hcovers _ hy.met hsame.symm with h | h | ⟨hy', honce⟩
    · have hpq : q.element = p.element := element hy.met (h.symm.trans horigin)
      rw [hpq] at htypes
      rcases htypes with ⟨h, h'⟩ | ⟨h, h'⟩ <;> cases h.symm.trans h'
    · exact absurd h hpoint
    obtain ⟨hpair, hblank, hblank'⟩ := hlisting.1 hy'
    refine ⟨hblank, hblank', hpair, fun u hu huid => ?_⟩
    rcases hcovers u hu huid with h | h | ⟨hu', -⟩
    · exact .inl (h.symm.trans horigin)
    · exact absurd h hpoint
    · exact .inr (honce u hu (huid.trans hsame) hu')
  · rintro ⟨hblank, hblank', hpair, hall⟩ u hu huid
    rcases hall u hu huid with h | rfl
    · exact .inl (horigin.trans h.symm)
    refine .inr (.inr ⟨hlisting.2 ⟨hpair, hblank, hblank'⟩, fun v hv hvid hv' => ?_⟩)
    rcases hall v hv (hvid.trans hsame.symm) with h | h
    · exact absurd hv' (Encounter.not_isListing_of_element_eq (hfelement.trans (element hv h).symm))
    · exact h

/-- A state and a vertex with one ID that are held by different regions are reported, unless neither
region has an ID, the vertex has the shape of the state, and nothing but these two is met under the
ID. -/
theorem foreign_listing_reported_iff (he : e.Coherent) {p q : Part} (hx : e.Meets place z p)
    (hy : e.Meets place z' q) (hstate : p.element.type = .state)
    (hvertex : q.element.type = .vertex) (hid : p.element.HasId)
    (hsame : p.element.id = q.element.id) (hne : z.origin ≠ z'.origin) :
    (e.integrityDefects options place).ReportsDuplicate p.element.id ↔
      ¬ (¬ z.element.HasId ∧ ¬ z'.element.HasId ∧ p.element.isListingPair q.element = true ∧
        ∃ first, e.first? place p.element.id = some first ∧
          (first.origin = (z.part p).origin ∧ (∀ u ∈ e.encounters place, u.id = p.element.id →
              u.origin = (z.part p).origin ∨ u = z'.part q) ∨
            first.origin = (z'.part q).origin ∧ ∀ u ∈ e.encounters place, u.id = p.element.id →
              u.origin = (z'.part q).origin ∨ u = z.part p)) := by
  rw [← not_iff_not, not_not, not_reportsDuplicate_iff he]
  obtain ⟨first, hfmet, hfirst, hfid⟩ := exists_first hx.met hid
  have hxfirst := hx.covers_foreign_iff he hy hne hsame (.inl ⟨hstate, hvertex⟩) hfmet
  have hyfirst := hy.covers_foreign_iff he hx hne.symm hsame.symm (.inr ⟨hvertex, hstate⟩) hfmet
  rw [← hsame, isListingPair_comm] at hyfirst
  constructor
  · intro hcovers
    have hall := hcovers first hfirst
    have hxall := hall _ hx.met rfl
    have hyall := hall _ hy.met hsame.symm
    rcases hxall with h | h | ⟨hxlisting, -⟩
    · obtain ⟨hblank, hblank', hpair, hothers⟩ := (hxfirst h).1 hall
      exact ⟨hblank, hblank', hpair, first, hfirst, .inl ⟨h, hothers⟩⟩
    · cases hstate.symm.trans (Encounter.types_of_isSamePoint h).2
    rcases hyall with h | h | ⟨hylisting, -⟩
    · obtain ⟨hblank', hblank, hpair, hothers⟩ := (hyfirst h).1 hall
      exact ⟨hblank, hblank', hpair, first, hfirst, .inr ⟨h, hothers⟩⟩
    · cases hvertex.symm.trans (Encounter.types_of_isSamePoint h).2
    · -- the first would be a vertex to go with the state and a state to go with the vertex
      have hfstate : first.element.type = .state := by
        rcases Encounter.types_of_isListing hylisting with ⟨h, -⟩ | ⟨-, h⟩
        · exact h
        · cases hvertex.symm.trans h
      have hfvertex : first.element.type = .vertex := by
        rcases Encounter.types_of_isListing hxlisting with ⟨-, h⟩ | ⟨h, -⟩
        · cases hstate.symm.trans h
        · exact h
      cases hfstate.symm.trans hfvertex
  · rintro ⟨hblank, hblank', hpair, f, hf, hcases⟩ f' hf'
    obtain rfl := Option.some.inj (hf.symm.trans hf')
    obtain rfl := Option.some.inj (hfirst.symm.trans hf)
    rcases hcases with ⟨horigin, hall⟩ | ⟨horigin, hall⟩
    · exact (hxfirst horigin).2 ⟨hblank, hblank', hpair, hall⟩
    · exact (hyfirst horigin).2 ⟨hblank', hblank, hpair, hall⟩

def stateAnnex (id : String) : Region where
  id := id
  states := [{ id := "s", type := .state }]

def vertexAnnex (id : String) : Region where
  id := id
  vertices := [.vertex { id := "s", type := .state }]

/-- Two regions, a state in the first one and a vertex with the shape of the state in the second. -/
def annexes (first second : String) : Element :=
  .stateMachine { id := "m", regions := [stateAnnex first, vertexAnnex second] }

/-- A region of the machine, as the walk comes to it. -/
def annex (first second : String) (i : ℕ) (r : Region) : Encounter :=
  (Encounter.ofRoot (annexes first second) []).part ⟨.member, .item "Regions" i, .region r⟩

def annexState : Part := ⟨.member, .item "States" 0, .state { id := "s", type := .state }⟩

def annexVertex : Part := ⟨.member, .item "Vertices" 0, .vertex { id := "s", type := .state }⟩

/-- In regions with IDs the vertex is reported. -/
theorem annexes_reported : ((annexes "a" "b").integrityDefects {} []).ReportsDuplicate "s" := by
  have hcoherent : (annexes "a" "b").Coherent := Unshared.coherent (unshared_of_tree (by cbv))
  have met (i : ℕ) {x : Encounter} (h : ((annexes "a" "b").encounters [])[i]? = some x) :
      x ∈ (annexes "a" "b").encounters [] := List.mem_of_getElem? h
  have hx : (annexes "a" "b").Meets [] (annex "a" "b" 0 (stateAnnex "a")) annexState :=
    ⟨met 1 (by cbv), .head _, met 2 (by cbv)⟩
  have hy : (annexes "a" "b").Meets [] (annex "a" "b" 1 (vertexAnnex "b")) annexVertex :=
    ⟨met 3 (by cbv), .head _, met 4 (by cbv)⟩
  have hne : (annex "a" "b" 0 (stateAnnex "a")).origin ≠
      (annex "a" "b" 1 (vertexAnnex "b")).origin := by
    decide
  refine (foreign_listing_reported_iff hcoherent hx hy rfl rfl (by decide) rfl
    hne).2 ?_
  rintro ⟨hblank, -⟩
  exact hblank (by decide)

/-- In regions without an ID it is let pass. -/
theorem annexes_unreported :
    (annexes "" "").Meets [] (annex "" "" 0 (stateAnnex "")) annexState ∧
      (annexes "" "").Meets [] (annex "" "" 1 (vertexAnnex "")) annexVertex ∧
      (annex "" "" 0 (stateAnnex "")).origin ≠ (annex "" "" 1 (vertexAnnex "")).origin ∧
      ¬ ((annexes "" "").integrityDefects {} []).ReportsDuplicate "s" := by
  have met (i : ℕ) {x : Encounter} (h : ((annexes "" "").encounters [])[i]? = some x) :
      x ∈ (annexes "" "").encounters [] := List.mem_of_getElem? h
  refine ⟨⟨met 1 (by cbv), .head _, met 2 (by cbv)⟩,
    ⟨met 3 (by cbv), .head _, met 4 (by cbv)⟩, by decide, ?_⟩
  exact Defects.not_reportsDuplicate (by cbv) "s"

end Element

end Statechart
