import Statechart.Proofs.Integrity.CycleReport
import Statechart.Proofs.Survey.Instance
import Statechart.Proofs.Survey.Sharing

/-! Where no ID is reported as a duplicate, each edge between IDs leads from an element to one of
its parts, or to the state that a part lists. So the ends of an edge have types that belong
together, and the element at the end is smaller than the one at the start: a model is a finite
value, and only a reused ID can make it look like a circle. -/

namespace Statechart

namespace Walk

variable {e : Element} {place : Locator} {w : Walk}

/-- Without duplicates the entry for the ID of a part is an encounter of that part, or makes a
listing with it. -/
theorem Reachable.part_entry (h : Reachable e place w) (he : e.Coherent) (hdone : w.agenda = [])
    (hdistinct : ∀ id, ¬ w.survey.Refuses id) {x : Encounter} (hx : x ∈ w.survey.entries)
    {p : Part} (hp : p ∈ x.element.parts) (hid : p.element.HasId) :
    ∃ y ∈ w.survey.entries, y.id = p.element.id ∧
      (y.element = p.element ∨ y.isListing (x.part p) = true) := by
  have hmet : x.part p ∈ w.met := (h.parts_met hdone hx hp).2
  obtain ⟨y, hy, hyid, haccounts⟩ := h.accounted hmet hid
  have hymet : y ∈ w.met := h.entries_subset hy
  refine ⟨y, hy, hyid, ?_⟩
  rcases haccounts with rfl | horigin | hpoint | hlisting | hrefused
  · exact .inl rfl
  · left
    exact Encounter.element_eq_of_origin_eq he (h.met_subset hymet) (h.met_subset hmet) horigin
  · exact .inl (Encounter.element_eq_of_isSamePoint hpoint)
  · exact .inr hlisting
  · exact absurd hrefused (hdistinct _)

theorem Reachable.edge_part (h : Reachable e place w) (he : e.Coherent) (hdone : w.agenda = [])
    (hdistinct : ∀ id, ¬ w.survey.Refuses id) {r : Relation} {a b : String}
    (hedge : (a, b) ∈ w.survey.edges r) :
    ∃ x ∈ w.survey.entries, ∃ y ∈ w.survey.entries, x.id = a ∧ y.id = b ∧
      ∃ p ∈ x.element.parts, y.element = p.element ∧ p.role.relation = r := by
  obtain ⟨x, hx, p, hp, hrole, hid, hab⟩ := h.edges hedge
  obtain ⟨rfl, rfl⟩ := Prod.mk.inj hab
  obtain ⟨y, hy, hyid, heq | hlisting⟩ := h.part_entry he hdone hdistinct hx hp hid
  · exact ⟨x, hx, y, hy, rfl, hyid, p, hp, heq, hrole⟩
  · -- both are parts of the element with the ID that owns them
    simp only [Encounter.isListing, Bool.and_eq_true, decide_eq_true_eq] at hlisting
    obtain ⟨hpair, howner⟩ := hlisting
    have hxid : x.knownId? = some x.id := Encounter.knownId?_eq_some.2 ⟨h.entries.1 x hx, rfl⟩
    obtain ⟨q, hq, rfl⟩ := h.part_of_owner (h.ready.2 y (h.entries_subset hy)) hx (howner.trans hxid)
    refine ⟨x, hx, _, hy, rfl, hyid, q, hq, rfl, ?_⟩
    obtain ⟨hqtype, hptype⟩ := Element.type_ne_of_isListingPair hpair
    rw [← hrole, Element.relation_eq_containment hp hptype,
      Element.relation_eq_containment hq hqtype]

end Walk

namespace Survey

/-- The size of the element recorded for an ID. -/
noncomputable def rank (s : Survey) (id : String) : ℕ :=
  match s.entry? id with
  | some x => sizeOf x.element
  | none => 0

end Survey

namespace Element

variable {e : Element} {options : Options} {place : Locator}

theorem edges_descend (he : e.Coherent) (hdistinct : ∀ id, ¬ (e.survey place).Refuses id)
    {r : Relation} {a b : String} (hedge : (a, b) ∈ (e.survey place).edges r) :
    ∃ x y, Survey.entry? (e.survey place) a = some x ∧ Survey.entry? (e.survey place) b = some y ∧
      r.allows x.type y.type = true ∧ sizeOf y.element < sizeOf x.element := by
  obtain ⟨met, hreach⟩ := Walk.survey_reachable e place
  obtain ⟨x, hx, y, hy, rfl, rfl, p, hp, hyp, rfl⟩ := hreach.edge_part he rfl hdistinct hedge
  refine ⟨x, y, hreach.entry?_eq_some hx, hreach.entry?_eq_some hy, ?_, ?_⟩
  · rw [Encounter.type, Encounter.type, hyp]
    exact allows_of_mem_parts hp
  · rw [hyp]
    exact sizeOf_of_mem_parts hp

theorem graph_acyclic (he : e.Coherent) (hdistinct : ∀ id, ¬ (e.survey place).Refuses id)
    (r : Relation) : ((e.survey place).graph r).Acyclic := by
  refine Digraph.acyclic_of_rank (e.survey place).rank ?_
  intro a b hab
  obtain ⟨r', hedge⟩ := Survey.exists_mem_edges_of_graph hab
  obtain ⟨x, y, hx, hy, -, hlt⟩ := edges_descend he hdistinct hedge
  simpa [Survey.rank, hx, hy] using hlt

theorem not_refuses_of_no_duplicate
    (h : ∀ d ∈ e.integrityDefects options place, d.cause.isDuplicate = false) (id : String) :
    ¬ (e.survey place).Refuses id := by
  rintro ⟨d, hd, type, first, hcause⟩
  have := h d (mem_integrityDefects.2 (.inl hd))
  rw [hcause] at this
  cases this

theorem isTooDeep_of_mem_relationDefects (he : e.Coherent)
    (hdistinct : ∀ id, ¬ (e.survey place).Refuses id) {limit : ℕ} {r : Relation}
    {d : Located Defect} (hd : d ∈ (e.survey place).relationDefects limit r) :
    d.cause.isTooDeep = true := by
  obtain ⟨a, b, hedge, hclash | ⟨path, -, rfl⟩ | ⟨path, -, rfl⟩⟩ := Survey.mem_edgeDefects hd
  · obtain ⟨x, y, hx, hy, hallows, -⟩ := edges_descend he hdistinct hedge
    simp [Survey.clashDefects, hx, hy, hallows] at hclash
  · rw [Survey.defectAt_cause]
    rfl
  · have hmem : (a :: path) ∈ Defects.cycles ((e.survey place).relationDefects limit r) r :=
      Defects.mem_cycles.2 ⟨_, hd, Survey.defectAt_cause _ _⟩
    exact absurd (Survey.reported_closed hmem).1 (graph_acyclic he hdistinct r _)

/-- A model without duplicate IDs has no clash of types and no cycle. That a number is on one
machine only is what numbers mean; every model that linking makes is so (`coherent_link`). -/
theorem no_clash_of_distinct_ids (he : e.Coherent)
    (h : ∀ d ∈ e.integrityDefects options place, d.cause.isDuplicate = false) :
    ∀ d ∈ e.integrityDefects options place,
      d.cause.isClash = false ∧ d.cause.isCycle = false := by
  have hdistinct := not_refuses_of_no_duplicate h
  intro d hd
  rcases mem_integrityDefects.1 hd with hd | hd | hd | ⟨r, hd⟩
  · apply Defect.harmless_of_stage
    rw [stage_of_mem_survey_defects hd]
    exact nofun
  · apply Defect.harmless_of_stage
    rw [Survey.stage_of_mem_referenceDefects hd]
    exact nofun
  · apply Defect.harmless_of_stage
    rw [Survey.stage_of_mem_associationDefects hd]
    exact nofun
  · exact Defect.harmless_of_isTooDeep (isTooDeep_of_mem_relationDefects he hdistinct hd)

/-- Two states that stand for one machine. -/
def twoStates (x : StateMachine) : Element := .stateMachine {
  id := "m"
  regions := [{ id := "r", states := [
    { id := "a", type := .state, isSubmachineState := true, submachine := some x },
    { id := "b", type := .state, isSubmachineState := true, submachine := some x }] }] }

/-- The machine is met twice without harm, even where all searches are broken off. -/
theorem twoStates_harmless :
    (∀ d ∈ ((twoStates { id := "@0" }).link (Sharing.define [{ id := "n" }])).integrityDefects
        { maxCycleDepth := 1 } [], d.cause.isDuplicate = false) ∧
      ∀ d ∈ ((twoStates { id := "@0" }).link (Sharing.define [{ id := "n" }])).integrityDefects
        { maxCycleDepth := 1 } [], d.cause.isClash = false ∧ d.cause.isCycle = false := by
  have hlink : (twoStates { id := "@0" }).link (Sharing.define [{ id := "n" }]) =
      twoStates { id := "n", shared := some 0 } := by cbv
  have hcoherent : (twoStates { id := "n", shared := some 0 }).Coherent := by
    rw [← hlink]
    apply coherent_link
    · intro m hm
      obtain rfl := List.mem_singleton.1 hm
      exact unshared_of_tree (by cbv)
    · exact unshared_of_tree (by cbv)
  have hdistinct : ((twoStates { id := "n", shared := some 0 }).integrityDefects
      { maxCycleDepth := 1 } []).all (!·.cause.isDuplicate) = true := by cbv
  have h : ∀ d ∈ (twoStates { id := "n", shared := some 0 }).integrityDefects
      { maxCycleDepth := 1 } [], d.cause.isDuplicate = false := by simpa using hdistinct
  rw [hlink]
  exact ⟨h, no_clash_of_distinct_ids hcoherent h⟩

end Element

end Statechart
