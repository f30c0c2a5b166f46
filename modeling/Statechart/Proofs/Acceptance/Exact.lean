import Statechart.Model.Build
import Statechart.Proofs.Acceptance.Distinct
import Statechart.Proofs.Integrity.Ceiling
import Statechart.Validation

/-! Acceptance of a machine that holds no other machine. The rules see to it that all references
lead somewhere: an end of a transition is a member of the region around it, and a member of a region
is met by the walk. They leave one thing to the integrity check, which is that no ID is used twice;
the relations between distinct IDs are in order by themselves. -/

namespace Statechart

namespace Survey

variable {s s' : Survey} {id : String}

/-- The ID belongs to a part of a recorded element. -/
def Holds (s : Survey) (id : String) : Prop :=
  ∃ z ∈ s.entries, ∃ q ∈ z.element.parts, q.element.HasId ∧ q.element.id = id

/-- The ID belongs to a vertex of some type that is part of a recorded element. -/
def HoldsVertex (s : Survey) (id : String) : Prop :=
  ∃ z ∈ s.entries, ∃ q ∈ z.element.parts, q.element.HasId ∧ q.element.id = id ∧
    q.element.type.isVertex = true

theorem HoldsVertex.holds (h : s.HoldsVertex id) : s.Holds id := by
  obtain ⟨z, hz, q, hq, hid, heq, -⟩ := h
  exact ⟨z, hz, q, hq, hid, heq⟩

theorem Holds.mono (h : s.Holds id) (hentries : s.entries ⊆ s'.entries) : s'.Holds id := by
  obtain ⟨z, hz, hq⟩ := h
  exact ⟨z, hentries hz, hq⟩

theorem HoldsVertex.mono (h : s.HoldsVertex id) (hentries : s.entries ⊆ s'.entries) :
    s'.HoldsVertex id := by
  obtain ⟨z, hz, hq⟩ := h
  exact ⟨z, hentries hz, hq⟩

/-- All references lead to parts of recorded elements, and associations join vertices both ways. -/
structure Anchored (s : Survey) : Prop where
  references : ∀ r ∈ s.references, ∃ id, r.target = some id ∧ s.Holds id
  back : ∀ a b, (a, b) ∈ s.association.edges → (b, a) ∈ s.association.edges
  vertices : ∀ a b, (a, b) ∈ s.association.edges → s.HoldsVertex b

theorem Anchored.mono (h : s.Anchored) (hentries : s.entries ⊆ s'.entries)
    (hrefs : s'.references = s.references) (hassoc : s'.association = s.association) :
    s'.Anchored := by
  refine ⟨?_, ?_, ?_⟩
  · intro r hr
    rw [hrefs] at hr
    obtain ⟨id, htarget, hid⟩ := h.references r hr
    exact ⟨id, htarget, hid.mono hentries⟩
  · intro a b hab
    rw [hassoc] at hab ⊢
    exact h.back a b hab
  · intro a b hab
    rw [hassoc] at hab
    exact (h.vertices a b hab).mono hentries

end Survey

namespace Walk

variable {m : StateMachine} {w : Walk} {x : Encounter} {rest : List Task} {met : List Encounter}
  {s : Survey}

/-- Both ends of a transition are set, and an end with an ID is a vertex beside the transition. -/
theorem Reachable.end_vertex (hm : m.IsTidy)
    (h : Reachable (.stateMachine m) [] ⟨.settle x :: rest, met, s⟩) {t : Transition}
    (ht : x.element = .transition t) (side : TransitionEnd) :
    ∃ v, t.atEnd side = some v ∧ (Text.isBlank v.id = false → s.HoldsVertex v.id) := by
  obtain ⟨hx, -⟩ : x ∈ met ∧ s.Entered x := h.ready.1 (.settle x) (.head _)
  rcases h.ready.2 x hx with rfl | ⟨z, hz, p, hp, rfl, hentered, -⟩
  · cases ht
  rw [Encounter.element_part] at ht
  obtain ⟨r, hr, hlist⟩ := Element.region_of_transition hp (by rw [ht]; rfl)
  obtain ⟨u, hmem, hu⟩ := Part.exists_of_mem_ofList hlist
  obtain rfl : t = u := by simpa [ht] using hu
  obtain ⟨⟨c, hc⟩, -, -⟩ := hm.own z (h.met_subset hz)
  rw [hr] at hc
  obtain ⟨v, hv, hmember⟩ := (Region.clean_transition hc hmem).2 side
  refine ⟨v, hv, ?_⟩
  intro hid
  obtain ⟨q, hq, hqid, hqtype⟩ := Region.exists_part_of_hasMember (hmember hid)
  rw [← hr] at hq
  refine ⟨z, hentered (hm.hasId (h.met_subset hz)), q, hq, ?_, hqid, hqtype⟩
  rw [Element.HasId, hqid]
  exact hid

theorem anchored_settle (hm : m.IsTidy)
    (h : Reachable (.stateMachine m) [] ⟨.settle x :: rest, met, s⟩) (hs : s.Anchored) :
    (s.settle x).Anchored := by
  have hx : x ∈ m.tree := h.met_subset (h.ready.1 (.settle x) (.head _)).1
  by_cases htype : ∃ t, x.element = .transition t
  · obtain ⟨t, ht⟩ := htype
    have hassoc (d : String × String) := Survey.mem_association_settle (s := s) ht (e := d)
    have reference {r : Reference} (side : TransitionEnd) (hr : r ∈ x.endReferences t side) :
        ∃ id, r.target = some id ∧ s.Holds id := by
      obtain ⟨v, hv, hvertex⟩ := h.end_vertex hm ht side
      rcases Encounter.mem_endReferences.1 hr with ⟨hnone, -⟩ | ⟨v', hv', hid, rfl⟩
      · rw [hv] at hnone
        cases hnone
      · cases hv.symm.trans hv'
        exact ⟨v.id, rfl, (hvertex hid).holds⟩
    refine ⟨?_, ?_, ?_⟩
    · intro r hr
      have hown : x.ownReferences = x.endReferences t .source ++ x.endReferences t .target := by
        rw [Encounter.ownReferences, ht]
      rw [Survey.references_settle, hown, List.mem_append, List.mem_append] at hr
      have : ∃ id, r.target = some id ∧ s.Holds id := by
        rcases hr with hr | hr | hr
        exacts [hs.references r hr, reference .source hr, reference .target hr]
      obtain ⟨id, htarget, hid⟩ := this
      exact ⟨id, htarget, hid.mono (by simp)⟩
    · intro a b hab
      rw [hassoc] at hab ⊢
      rcases hab with hab | ⟨u, v, hu, hv, hid, hid', hab⟩
      · exact .inl (hs.back a b hab)
      · refine .inr ⟨u, v, hu, hv, hid, hid', ?_⟩
        rcases hab with hab | hab <;> cases hab
        · exact .inr rfl
        · exact .inl rfl
    · intro a b hab
      have hentries : s.entries ⊆ (s.settle x).entries := by simp
      rcases (hassoc _).1 hab with hab | ⟨u, v, hu, hv, hid, hid', hab⟩
      · exact (hs.vertices a b hab).mono hentries
      · obtain ⟨u', hu', hsource⟩ := h.end_vertex hm ht .source
        obtain ⟨v', hv', htarget⟩ := h.end_vertex hm ht .target
        cases hu.symm.trans hu'
        cases hv.symm.trans hv'
        rcases hab with hab | hab <;> cases hab
        · exact (htarget hid').mono hentries
        · exact (hsource hid).mono hentries
  · rw [Survey.settle_of_not_transition (fun t ht => htype ⟨t, ht⟩)]
    · exact hs
    · intro state hstate
      obtain ⟨⟨c, hc⟩, -, -⟩ := hm.own x hx
      rw [hstate] at hc
      have hspot : x ∈ m.spots := hm.spots_eq ▸ hx
      exact (State.plain_of_breaches hc (hm.selfContained x hspot state hstate)).1

theorem Reachable.anchored (hm : m.IsTidy) (h : Reachable (.stateMachine m) [] w) :
    w.survey.Anchored := by
  refine h.survey_induction ⟨nofun, nofun, nofun⟩ ?_ ?_ ?_
  · intro x rest met s _ hs
    exact hs.mono (fun y hy => Survey.mem_entries_meet.2 (.inl hy)) (by simp) (by simp)
  · intro x p rest met s hreach hs
    obtain ⟨hx, hentered, hp⟩ : x ∈ met ∧ s.Entered x ∧ p ∈ x.element.parts :=
      hreach.ready.1 (.follow x p) (.head _)
    have hpart := Encounter.part_mem_tree (hreach.met_subset hx) hp
    have hrole : p.role ≠ .referencePoint := by
      obtain ⟨-, -, hrole⟩ := hm.own _ hpart
      intro heq
      rcases hrole with hrole | hrole <;> rw [show p.role = _ from hrole] at heq <;> cases heq
    have hentries : s.entries ⊆ (s.link x p).entries := by simp
    refine ⟨?_, ?_, ?_⟩
    · intro r hr
      rcases Survey.mem_references_link.1 hr with hr | ⟨hid, hpid, rfl⟩
      · obtain ⟨id, htarget, hid⟩ := hs.references r hr
        exact ⟨id, htarget, hid.mono hentries⟩
      · exact ⟨_, rfl, x, hentries (hentered hid), p, hp, hpid, rfl⟩
    · rw [Survey.association_link hrole]
      exact hs.back
    · intro a b hab
      rw [Survey.association_link hrole] at hab
      exact (hs.vertices a b hab).mono hentries
  · intro x rest met s hreach hs
    exact anchored_settle hm hreach hs

/-- An ID that a recorded element holds was recorded. -/
theorem Reachable.entry_of_holds {e : Element} {place : Locator} (h : Reachable e place w)
    (hdone : w.agenda = []) {id : String} (hid : w.survey.Holds id) :
    (w.survey.entry? id).isSome := by
  obtain ⟨z, hz, q, hq, hqid, rfl⟩ := hid
  obtain ⟨y, hy, hyid, -⟩ := h.accounted (h.parts_met hdone hz hq).2 hqid
  exact Survey.entry?_isSome.2 ⟨y, hy, hyid⟩

end Walk

/-- A vertex refers to vertices of any type. -/
theorem EntityType.mayReference_of_isVertex {a b : EntityType} (h : b.isVertex = true) :
    a.mayReference b = true := by
  cases b <;> simp_all [mayReference, isVertex]

namespace StateMachine.IsTidy

variable {m : StateMachine}

theorem referenceDefects_eq_nil (hm : m.IsTidy) :
    ((Element.stateMachine m).survey []).referenceDefects = [] := by
  obtain ⟨met, hreach⟩ := Walk.survey_reachable (.stateMachine m) []
  apply List.eq_nil_iff_forall_not_mem.2
  intro d hd
  obtain ⟨r, hr, -, -, hcases⟩ := Survey.mem_referenceDefects hd
  obtain ⟨id, htarget, hid⟩ := (hreach.anchored hm).references r hr
  have hentry := hreach.entry_of_holds rfl hid
  rcases hcases with ⟨hunset, -⟩ | ⟨id', htarget', hnone, -⟩
  · cases htarget.symm.trans hunset
  · obtain rfl := Option.some.inj (htarget.symm.trans htarget')
    rw [hnone] at hentry
    cases hentry

theorem associationDefects_eq_nil (hm : m.IsTidy)
    (hdistinct : ∀ id, ¬ ((Element.stateMachine m).survey []).Refuses id) :
    ((Element.stateMachine m).survey []).associationDefects = [] := by
  obtain ⟨met, hreach⟩ := Walk.survey_reachable (.stateMachine m) []
  have hanchored := hreach.anchored hm
  apply List.eq_nil_iff_forall_not_mem.2
  intro d hd
  obtain ⟨a, b, hab, ⟨hback, -⟩ | ⟨x, y, -, hy, hnot, -⟩⟩ := Survey.mem_associationDefects hd
  · exact hback (hanchored.back a b hab)
  have hvertex : y.type.isVertex = true := by
    obtain ⟨z, hz, q, hq, hqid, rfl, hvertex⟩ := hanchored.vertices a b hab
    obtain ⟨y', hy', hid, helement⟩ := hreach.part_entry hm.coherent rfl hdistinct hz hq hqid
    obtain ⟨hmem, hyid⟩ := Survey.entry?_eq_some hy
    obtain rfl := hreach.eq_of_id_eq hy' hmem (hid.trans hyid.symm)
    rcases helement with helement | hlisting
    · rw [Encounter.type, helement]
      exact hvertex
    · -- the entry is a state or a plain vertex
      simp only [Encounter.isListing, Bool.and_eq_true] at hlisting
      rcases Element.isListingPair_types hlisting.1 with ⟨s, hs, -⟩ | ⟨s, -, hs⟩ <;>
        rw [Encounter.type, hs] <;> rfl
  rw [EntityType.mayReference_of_isVertex hvertex] at hnot
  cases hnot

/-- The integrity check adds to the rules that IDs are distinct, and nothing else. -/
theorem integrityDefects_eq_nil (hm : m.IsTidy) {options : Options}
    (hdepth : m.spots.length ≤ options.maxCycleDepth) :
    (Element.stateMachine m).integrityDefects options [] = [] ↔ m.HasDistinctIds := by
  rw [← hm.survey_defects_eq_nil]
  constructor
  · intro h
    apply List.eq_nil_iff_forall_not_mem.2
    intro d hd
    have hmem : d ∈ (Element.stateMachine m).integrityDefects options [] :=
      Element.mem_integrityDefects.2 (.inl hd)
    rw [h] at hmem
    cases hmem
  · intro h
    have hdistinct (id : String) : ¬ ((Element.stateMachine m).survey []).Refuses id := by
      rintro ⟨d, hd, -⟩
      rw [h] at hd
      cases hd
    rw [hm.spots_eq] at hdepth
    apply List.eq_nil_iff_forall_not_mem.2
    intro d hd
    rcases Element.mem_integrityDefects.1 hd with hd | hd | hd | ⟨r, hd⟩
    · rw [h] at hd
      cases hd
    · rw [hm.referenceDefects_eq_nil] at hd
      cases hd
    · rw [hm.associationDefects_eq_nil hdistinct] at hd
      cases hd
    · have hdeep := Element.isTooDeep_of_mem_relationDefects hm.coherent hdistinct hd
      rw [Element.not_tooDeep hdepth hd] at hdeep
      cases hdeep

end StateMachine.IsTidy

namespace StateMachine

theorem clean_of_ruleFindings {m : StateMachine} {c : Context} (h : m.ruleFindings c = []) :
    (Element.stateMachine m).Clean := ⟨c, List.map_eq_nil_iff.1 h⟩

/-- Exact acceptance: a machine that holds no other machine, examined with a limit that is at least
the number of its elements, has no findings if and only if it breaks no rule and its IDs are
distinct. -/
theorem validate_eq_nil_iff (m : StateMachine) (options : Options) (hself : m.IsSelfContained)
    (hdepth : m.spots.length ≤ options.maxCycleDepth) :
    m.validate options = [] ↔ m.ruleFindings { options } = [] ∧ m.HasDistinctIds := by
  unfold validate
  rw [List.append_eq_nil_iff]
  apply and_congr_right
  intro hrules
  have hm : m.IsTidy := ⟨clean_of_ruleFindings hrules, hself⟩
  rw [← hm.integrityDefects_eq_nil hdepth]
  exact List.map_eq_nil_iff

/-- A machine with an entry point and a composite state around a final state. The IDs of the point
and of the final state are left open. -/
def gate (point final : String) : StateMachine where
  id := "m"
  connectionPoints := [.named point "" .entryPoint]
  regions := [{
    id := "r"
    states := [{
      id := "a"
      type := .state
      isComposite := true
      regions := [{ id := "q", vertices := [.finalState (.named final "")] }] }]
    vertices := [.pseudostate (.initial "i"), .vertex { id := "a", type := .state }]
    transitions := [
      .between "t" { id := "i", type := .pseudostate } { id := "a", type := .state }] }]

/-- The machine is accepted, and not accepted where the point takes the ID of the final state. -/
theorem validate_gate :
    ((gate "p" "f").validate {} = [] ∧ (gate "p" "f").HasDistinctIds) ∧
      (gate "f" "f").ruleFindings {} = [] ∧ ¬ (gate "f" "f").HasDistinctIds := by
  have hself : (gate "p" "f").IsSelfContained := isSelfContained_iff.2 (by cbv)
  have hself' : (gate "f" "f").IsSelfContained := isSelfContained_iff.2 (by cbv)
  have hlength : (gate "p" "f").spots.length = 9 := by cbv
  have hlength' : (gate "f" "f").spots.length = 9 := by cbv
  have hvalid : (gate "p" "f").validate {} = [] := by cbv
  have hrules : (gate "f" "f").ruleFindings {} = [] := by cbv
  have hdefects : ((Element.stateMachine (gate "f" "f")).integrityDefects {} []).length = 2 := by
    cbv
  refine ⟨⟨hvalid, ?_⟩, hrules, ?_⟩
  · exact ((validate_eq_nil_iff (gate "p" "f") {} hself (by rw [hlength]; decide)).1 hvalid).2
  · intro hids
    have hvalid' : (gate "f" "f").validate {} = [] :=
      (validate_eq_nil_iff (gate "f" "f") {} hself' (by rw [hlength']; decide)).2 ⟨hrules, hids⟩
    rw [List.map_eq_nil_iff.1 (List.append_eq_nil_iff.1 hvalid').2] at hdefects
    cases hdefects

end StateMachine

end Statechart
