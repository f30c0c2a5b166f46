import Statechart.Model.Build
import Statechart.Proofs.Agreement.Edges
import Statechart.Proofs.Integrity.Reuse
import Statechart.Proofs.Location.Findings

/-! Transitions with a blank end. The integrity check leaves a blank end to the rules, and of these
none asks for the ID of an end. So a finding at such a transition has another reason: a flaw of the
transition that the rules know of, or an ID of the transition that is taken. -/

namespace Statechart

def TransitionEnd.other : TransitionEnd → TransitionEnd
  | source => target
  | target => source

theorem TransitionEnd.eq_or_eq_other (side s : TransitionEnd) : s = side ∨ s = side.other := by
  cases side <;> cases s <;> simp [other]

theorem Transition.flaw_iff_of_blank_end {r : Region} {t : Transition} {side : TransitionEnd}
    {v : Vertex} (hv : t.atEnd side = some v) (hblank : Text.isBlank v.id = true) :
    t.Flaw r ↔ Text.isBlank t.id = true ∨ t.kind.isKnown = false ∨
      (∀ u, t.atEnd side.other = some u → t.kind = .internal ∧ u.id ≠ v.id ∨
        Text.isBlank u.id = false ∧ r.hasMember u.id = false) ∨
      ∃ u, t.source = some u ∧ (isFinal r u = true ∨
        t.kind = .local ∧ (r.state? u.id).any (!·.isComposite) = true) := by
  constructor
  · intro h
    cases h with
    | blankId hid => exact .inl hid
    | noEnd s hend =>
      rcases side.eq_or_eq_other s with rfl | rfl
      · cases hv.symm.trans hend
      · exact .inr (.inr (.inl fun u hu => by cases hu.symm.trans hend))
    | unknownKind hkind => exact .inr (.inl hkind)
    | internal hu hw hkind hne =>
      refine .inr (.inr (.inl fun x hx => .inl ⟨hkind, ?_⟩))
      cases side
      · cases hu.symm.trans hv
        cases hw.symm.trans hx
        exact hne.symm
      · cases hw.symm.trans hv
        cases hu.symm.trans hx
        exact hne
    | @outside s w hw hid hmember =>
      rcases side.eq_or_eq_other s with rfl | rfl
      · cases hv.symm.trans hw
        rw [hid] at hblank
        cases hblank
      · refine .inr (.inr (.inl fun u hu => .inr ?_))
        cases hw.symm.trans hu
        exact ⟨hid, hmember⟩
    | final hu hfinal => exact .inr (.inr (.inr ⟨_, hu, .inl hfinal⟩))
    | localSource hu hkind hsimple => exact .inr (.inr (.inr ⟨_, hu, .inr ⟨hkind, hsimple⟩⟩))
  · rintro (hid | hkind | hother | ⟨u, hu, hfinal | ⟨hkind, hsimple⟩⟩)
    · exact .blankId hid
    · exact .unknownKind hkind
    · cases hu : t.atEnd side.other with
      | none => exact .noEnd _ hu
      | some u =>
        rcases hother u hu with ⟨hkind, hne⟩ | ⟨hid, hmember⟩
        · cases side
          · exact .internal hv hu hkind hne.symm
          · exact .internal hu hv hkind hne
        · exact .outside hu hid hmember
    · exact .final hu hfinal
    · exact .localSource hu hkind hsimple

namespace StateMachine

variable {m : StateMachine} {options : Options} {x z : Encounter} {r : Region} {i : ℕ}
  {t : Transition} {d : Located Defect}

theorem located_of_path {α : Type} {d : Located α}
    (hd : (Entity.element (.stateMachine m)).Locates [] d) (hx : x ∈ m.tree)
    (hpath : d.place.text = x.place.text) : d.place = x.place ∧ d.type = x.type := by
  obtain ⟨l, y, hl, hplace, htype⟩ := hd
  rw [List.nil_append] at hplace
  have heq : d.place = x.place :=
    Locator.text_injective (hplace ▸ Entity.isPlain_of_leads hl) (Encounter.isPlain_place hx) hpath
  have hxl : (Entity.element (.stateMachine m)).Leads x.place (.element x.element) := by
    obtain ⟨way, hway, hxway⟩ := Encounter.mem_tree.1 hx
    have hxplace : x.place = way.map (·.step) := by
      rw [hxway, Encounter.place_along]
      rfl
    exact hxplace ▸ Entity.leads_of_way hway
  -- one path leads to one thing
  have hresolve := Entity.resolve_of_leads hl
  rw [← hplace, heq, Entity.resolve_of_leads hxl] at hresolve
  cases hresolve
  exact ⟨heq, htype.symm⟩

/-- A transition of a region as it is met. -/
def edge (z : Encounter) (i : ℕ) (t : Transition) : Encounter :=
  z.part ⟨.member, .item "Transitions" i, .transition t⟩

theorem edge_mem_tree (hz : z ∈ m.tree) (hr : z.element = .region r)
    (ht : r.transitions[i]? = some t) : edge z i t ∈ m.tree := by
  obtain ⟨hi, rfl⟩ := List.getElem?_eq_some_iff.1 ht
  refine Encounter.part_mem_tree hz ?_
  rw [hr]
  exact Element.mem_parts_region.2 (.inr (.inr (Part.mem_ofList.2 ⟨i, hi, rfl⟩)))

theorem eq_edge (hz : z ∈ m.tree) (hr : z.element = .region r) (ht : r.transitions[i]? = some t)
    (hx : x ∈ m.tree) (hplace : x.place = z.place ++ [.item "Transitions" i]) : x = edge z i t :=
  Encounter.eq_of_place_eq hx (edge_mem_tree hz hr ht) hplace

theorem flaw_of_survey_defect (hz : z ∈ m.tree) (hr : z.element = .region r)
    (ht : r.transitions[i]? = some t) (hd : d ∈ ((Element.stateMachine m).survey []).defects)
    (hplace : d.place = z.place ++ [.item "Transitions" i]) :
    t.Flaw r ∨ d.cause.isDuplicate = true := by
  obtain ⟨a, ha, hda⟩ := Walk.mem_survey_defects.1 hd
  obtain ⟨-, hap, ⟨hid, -⟩ | ⟨first, -, -, -, hcause⟩⟩ := Arrival.mem_defects.1 hda
  · have hedge := eq_edge hz hr ht (Element.encounters_subset_tree (List.mem_map_of_mem ha))
      (hap.symm.trans hplace)
    rw [hedge] at hid
    exact .inl (.blankId (Bool.eq_true_of_not_eq_false hid))
  · right
    rw [hcause]
    rfl

theorem flaw_of_reference_defect (hz : z ∈ m.tree) (hown : z.place.IsOwn)
    (hr : z.element = .region r) (ht : r.transitions[i]? = some t)
    (hd : d ∈ ((Element.stateMachine m).survey []).referenceDefects) (htype : d.type = .transition)
    (hplace : d.place = z.place ++ [.item "Transitions" i]) : t.Flaw r := by
  have hreach := Walk.reachable_survey (.stateMachine m) []
  have hdown : d.place.IsOwn := by
    rw [hplace, Locator.isOwn_snoc]
    exact ⟨hown, by simp [Segment.item, Segment.field]⟩
  have hintegrity : d ∈ (Element.stateMachine m).integrityDefects {} [] :=
    Element.mem_integrityDefects.2 (.inr (.inl hd))
  obtain ⟨ref, href, -, hrefplace, ⟨htarget, -⟩ | ⟨id, -, -, hcause⟩⟩ :=
    Survey.mem_referenceDefects hd
  · obtain ⟨x, hx, hxr | ⟨p, -, rfl⟩⟩ := hreach.references ref href
    · obtain ⟨-, hxplace⟩ := Encounter.located_of_mem_ownReferences hxr
      obtain rfl := eq_edge hz hr ht (Element.encounters_subset_tree hx)
        (hxplace.symm.trans (hrefplace.symm.trans hplace))
      obtain ⟨side, hside⟩ : ∃ side, ref ∈ (edge z i t).endReferences t side := by
        rcases List.mem_append.1 hxr with hxr | hxr
        · exact ⟨_, hxr⟩
        · exact ⟨_, hxr⟩
      rcases Encounter.mem_endReferences.1 hside with ⟨hend, -⟩ | ⟨v, -, -, rfl⟩
      · exact .noEnd side hend
      · cases htarget
    · cases htarget
  · -- an end that nobody knows is no member of the region either
    obtain ⟨side, region, -, hb⟩ := endBreach_of_unknownTarget hintegrity hdown htype hcause
    exact flaw_of_mem_breaches hz hr ht hb rfl hplace

theorem type_ne_of_association_defect
    (hd : d ∈ ((Element.stateMachine m).survey []).associationDefects) : d.type ≠ .transition := by
  have hreach := Walk.reachable_survey (.stateMachine m) []
  obtain ⟨a, b, hab, ⟨hback, -⟩ | ⟨x, y, hx, -, hnot, rfl⟩⟩ := Survey.mem_associationDefects hd
  · exact absurd (hreach.association_symm a b hab) hback
  · intro htype
    simp only [Survey.defectAt, hx] at htype
    rw [htype] at hnot
    cases hnot

theorem type_ne_of_relation_defect {limit : ℕ} {relation : Relation}
    (hd : d ∈ ((Element.stateMachine m).survey []).relationDefects limit relation) :
    d.type ≠ .transition := by
  have hreach := Walk.reachable_survey (.stateMachine m) []
  obtain ⟨a, b, hab, hcases⟩ := Survey.mem_edgeDefects hd
  obtain ⟨x, hx, p, hp, -, -, heq⟩ := hreach.edges hab
  obtain ⟨rfl, rfl⟩ := Prod.mk.inj heq
  have hentry := hreach.entry?_eq_some hx
  have hxtype : x.type ≠ .transition := by
    intro htype
    rw [Encounter.type] at htype
    cases hxe : x.element <;> rw [hxe] at htype hp <;> first | cases hp | cases htype
  have located (cause : Defect) :
      (Survey.defectAt ((Element.stateMachine m).survey []) x.id cause).type = x.type := by
    simp [Survey.defectAt, hentry]
  rcases hcases with hclash | ⟨path, -, rfl⟩ | ⟨path, -, rfl⟩
  · obtain ⟨-, -, -, -, -, rfl⟩ := Survey.mem_clashDefects hclash
    rwa [located]
  · rwa [located]
  · rwa [located]

/-- At an own transition the integrity check reports flaws, and IDs that are taken. -/
theorem flaw_or_duplicate (hz : z ∈ m.tree) (hown : z.place.IsOwn) (hr : z.element = .region r)
    (ht : r.transitions[i]? = some t)
    (hd : d ∈ (Element.stateMachine m).integrityDefects options []) (htype : d.type = .transition)
    (hplace : d.place = z.place ++ [.item "Transitions" i]) :
    t.Flaw r ∨ d.cause.isDuplicate = true := by
  rcases Element.mem_integrityDefects.1 hd with hd | hd | hd | ⟨relation, hd⟩
  · exact flaw_of_survey_defect hz hr ht hd hplace
  · exact .inl (flaw_of_reference_defect hz hown hr ht hd htype hplace)
  · exact absurd htype (type_ne_of_association_defect hd)
  · exact absurd htype (type_ne_of_relation_defect hd)

/-- A finding is located at an own transition if and only if the transition has a flaw, or an ID
that is taken where the walk comes to it. -/
theorem reported_at_edge_iff (hz : z ∈ m.tree) (hown : z.place.IsOwn) (hr : z.element = .region r)
    (ht : r.transitions[i]? = some t) :
    (∃ f ∈ m.validate options, f.path = Locator.text (z.place ++ [.item "Transitions" i])) ↔
      t.Flaw r ∨ ∃ d ∈ (Element.stateMachine m).integrityDefects options [],
        d.cause.isDuplicate = true ∧ d.place = z.place ++ [.item "Transitions" i] := by
  have hedge := edge_mem_tree hz hr ht
  constructor
  · rintro ⟨f, hf, hpath⟩
    rcases List.mem_append.1 hf with hf | hf
    · obtain ⟨b, hb, rfl⟩ := List.mem_map.1 hf
      obtain ⟨hplace, htype⟩ := located_of_path
        ((Element.stateMachine m).locates_breaches { options } b hb) hedge hpath
      exact .inl (flaw_of_mem_breaches hz hr ht hb htype hplace)
    · obtain ⟨d, hd, rfl⟩ := List.mem_map.1 hf
      obtain ⟨hplace, htype⟩ :=
        located_of_path (Element.locates_integrityDefects d hd) hedge hpath
      rcases flaw_or_duplicate hz hown hr ht hd htype hplace with h | h
      · exact .inl h
      · exact .inr ⟨d, hd, h, hplace⟩
  · rintro (hflaw | ⟨d, hd, -, hplace⟩)
    · obtain ⟨b, hb, hplace⟩ := exists_breach_of_flaw hz hown hr ht hflaw
      exact ⟨b.finding, List.mem_append_left _ (List.mem_map_of_mem hb), congrArg _ hplace⟩
    · exact ⟨d.finding, List.mem_append_right _ (List.mem_map_of_mem hd), congrArg _ hplace⟩

/-- A finding is located at an own transition with a blank end if and only if something else is
wrong with the transition: its ID is blank or taken, its kind is unknown, its other end is not set,
leads out of the region or is another one although the transition is internal, or its source must
not be one. -/
theorem blank_end_reported_iff (hz : z ∈ m.tree) (hown : z.place.IsOwn) (hr : z.element = .region r)
    (ht : r.transitions[i]? = some t) {side : TransitionEnd} {v : Vertex}
    (hv : t.atEnd side = some v) (hblank : Text.isBlank v.id = true) :
    (∃ f ∈ m.validate options, f.path = Locator.text (z.place ++ [.item "Transitions" i])) ↔
      Text.isBlank t.id = true ∨ t.kind.isKnown = false ∨
        (∀ u, t.atEnd side.other = some u → t.kind = .internal ∧ u.id ≠ v.id ∨
          Text.isBlank u.id = false ∧ r.hasMember u.id = false) ∨
        (∃ u, t.source = some u ∧ (Transition.isFinal r u = true ∨
          t.kind = .local ∧ (r.state? u.id).any (!·.isComposite) = true)) ∨
        ∃ d ∈ (Element.stateMachine m).integrityDefects options [],
          d.cause.isDuplicate = true ∧ d.place = z.place ++ [.item "Transitions" i] := by
  rw [reported_at_edge_iff hz hown hr ht, Transition.flaw_iff_of_blank_end hv hblank]
  simp only [or_assoc]

def nowhere : Vertex := { id := "", type := .state }

/-- A region with a transition whose ends are both blank. -/
def driftRegion (id : String) : Region where
  id := "r"
  transitions := [.between id nowhere nowhere]

def drift (id : String) : StateMachine := { id := "m", regions := [driftRegion id] }

/-- The region as a walk comes to it. -/
def driftEncounter (id : String) : Encounter :=
  (Encounter.ofRoot (.stateMachine (drift id)) []).part
    ⟨.member, .item "Regions" 0, .region (driftRegion id)⟩

theorem driftEncounter_mem_tree (id : String) : driftEncounter id ∈ (drift id).tree :=
  Encounter.part_mem_tree (Encounter.self_mem_tree _) (.head _)

/-- A finding is located at the transition when it has no ID either. -/
theorem drift_reported :
    ∃ f ∈ (drift "").validate {},
      f.path = Locator.text [.item "Regions" 0, .item "Transitions" 0] := by
  have ht : (driftRegion "").transitions[0]? = some (.between "" nowhere nowhere) := rfl
  have hv : (Transition.between "" nowhere nowhere).atEnd .source = some nowhere := rfl
  exact (blank_end_reported_iff (driftEncounter_mem_tree "") (by decide) rfl ht hv
    (by decide)).2 (.inl (by decide))

/-- When it has one, nothing is found in the whole machine. -/
theorem drift_unreported :
    driftEncounter "t" ∈ (drift "t").tree ∧ (driftEncounter "t").place.IsOwn ∧
      (driftEncounter "t").element = .region (driftRegion "t") ∧
      (driftRegion "t").transitions[0]? = some (.between "t" nowhere nowhere) ∧
      (Transition.between "t" nowhere nowhere).atEnd .source = some nowhere ∧
      Text.isBlank nowhere.id = true ∧ (drift "t").validate {} = [] :=
  ⟨driftEncounter_mem_tree "t", by decide, rfl, rfl, rfl, by decide, by cbv⟩

end StateMachine

end Statechart
