import Statechart.Model.Build
import Statechart.Proofs.Agreement.Ends
import Statechart.Proofs.Agreement.Layers

/-! What the rules and the integrity check say of what is missing, as their findings say it:
elements without an ID, ends of transitions that are not set, states that stand for a machine and do
not name it. What a layer says of each is a selection among the gaps that it reports, and the gaps
are the same. -/

namespace Statechart

namespace Gap

def blankId? (g : Gap) : Option (EntityType × Locator) :=
  if g.kind = .id then some (g.type, g.place) else none

def openEnd? (g : Gap) : Option (Locator × String) :=
  match g.kind with
  | .field field =>
    if g.type = .transition ∧ (field = "Source" ∨ field = "Target") then some (g.place, field)
    else none
  | _ => none

def openState? (g : Gap) : Option (EntityType × Locator) :=
  if g.kind = .submachine then some (g.type, g.place) else none

theorem map_filter_eq {α β : Type} {gap? : α → Option Gap} {select : Gap → Option β}
    {P : α → Bool} {f : α → β} {l : List α}
    (h : ∀ a ∈ l, (gap? a).bind select = if P a then some (f a) else none) :
    (l.filter P).map f = (l.filterMap gap?).filterMap select := by
  rw [List.filterMap_filterMap, ← List.filterMap_eq_map, List.filterMap_filter]
  refine List.filterMap_congr ?_
  intro a ha
  exact (h a ha).symm

end Gap

/-- A state must reference a submachine. -/
def Breach.isSubmachineMissing : Breach → Bool
  | submachineMissing _ => true
  | _ => false

namespace Breaches

/-- The elements whose ID is required. -/
def blankIds (l : Breaches) : List (EntityType × Locator) :=
  (l.filter fun b => b.cause.kind = .required ∧ b.cause.field = "ID" ∧ b.type.isElement).map
    fun b => (b.type, b.place)

/-- The sources and targets of transitions that are required. -/
def openEnds (l : Breaches) : List (Locator × String) :=
  (l.filter fun b => b.cause.kind = .required ∧ b.type = .transition ∧
    (b.cause.field = "Source" ∨ b.cause.field = "Target")).map fun b => (b.place, b.cause.field)

/-- The states that must reference a submachine. -/
def openStates (l : Breaches) : List (EntityType × Locator) :=
  (l.filter (·.cause.isSubmachineMissing)).map fun b => (b.type, b.place)

theorem blankIds_eq (l : Breaches) : l.blankIds = (gaps l).filterMap Gap.blankId? := by
  refine Gap.map_filter_eq ?_
  rintro ⟨type, place, cause⟩ _
  cases cause with
  | blank field =>
    cases helement : type.isElement <;> by_cases hid : field = "ID" <;>
      simp [gap?, Breach.kind, Breach.field, helement, hid, Gap.blankId?, GapKind.ofText]
  | noEnd side transition => cases side <;> rfl
  | submachineMissing state => rfl
  | _ => simp [gap?, Breach.kind]

theorem openEnds_eq (l : Breaches) : l.openEnds = (gaps l).filterMap Gap.openEnd? := by
  refine Gap.map_filter_eq ?_
  rintro ⟨type, place, cause⟩ _
  cases cause with
  | blank field =>
    by_cases htype : type = .transition
    · subst htype
      by_cases hid : field = "ID" <;>
        simp [gap?, Breach.kind, Breach.field, EntityType.isElement, hid, Gap.openEnd?,
          GapKind.ofText]
    · cases helement : type.isElement <;> by_cases hid : field = "ID" <;>
        simp [gap?, Breach.kind, Breach.field, helement, hid, htype, Gap.openEnd?, GapKind.ofText]
  | noEnd side transition =>
    cases side <;> simp [gap?, Breach.kind, Breach.field, Gap.openEnd?, TransitionEnd.field]
  | submachineMissing state => rfl
  | _ => simp [gap?, Breach.kind]

theorem openStates_eq (l : Breaches) : l.openStates = (gaps l).filterMap Gap.openState? := by
  refine Gap.map_filter_eq ?_
  rintro ⟨type, place, cause⟩ _
  cases cause with
  | blank field =>
    cases helement : type.isElement <;> by_cases hid : field = "ID" <;>
      simp [gap?, Breach.isSubmachineMissing, helement, hid, Gap.openState?, GapKind.ofText]
  | _ => rfl

end Breaches

namespace Defects

/-- The elements without an ID. -/
def blankIds (l : Defects) : List (EntityType × Locator) :=
  (l.filter fun d => d.cause.kind = .required).map fun d => (d.type, d.place)

/-- The sources and targets that are not set. -/
def openEnds (l : Defects) : List (Locator × String) :=
  (l.filter fun d => d.cause = .unset "Source" ∨ d.cause = .unset "Target").map
    fun d => (d.place, d.cause.field)

/-- The submachines that are not set. -/
def openStates (l : Defects) : List (EntityType × Locator) :=
  (l.filter fun d => d.cause = .unset "Submachine").map fun d => (d.type, d.place)

theorem blankIds_eq (l : Defects) : l.blankIds = (gaps l).filterMap Gap.blankId? := by
  refine Gap.map_filter_eq ?_
  rintro ⟨type, place, cause⟩ _
  cases cause with
  | unset field =>
    by_cases hfield : field = "Submachine" <;>
      simp [gap?, Defect.kind, Gap.blankId?, GapKind.ofSlot, hfield]
  | _ => rfl

/-- Only transitions have sources and targets, so the type need not be asked for. -/
theorem openEnds_eq {l : Defects}
    (h : ∀ g ∈ gaps l, ∀ field, g.kind = .field field → g.type = .transition) :
    l.openEnds = (gaps l).filterMap Gap.openEnd? := by
  refine Gap.map_filter_eq ?_
  rintro ⟨type, place, cause⟩ hmem
  cases cause with
  | unset field =>
    by_cases hfield : field = "Submachine"
    · simp [gap?, Gap.openEnd?, GapKind.ofSlot, hfield]
    · have htype : type = .transition :=
        h ⟨type, place, .field field⟩
          (List.mem_filterMap.2 ⟨_, hmem, by simp [gap?, GapKind.ofSlot, hfield]⟩) field rfl
      simp [gap?, Gap.openEnd?, GapKind.ofSlot, hfield, htype, Defect.field]
  | _ => simp [gap?, Gap.openEnd?]

theorem openStates_eq (l : Defects) : l.openStates = (gaps l).filterMap Gap.openState? := by
  refine Gap.map_filter_eq ?_
  rintro ⟨type, place, cause⟩ _
  cases cause with
  | unset field =>
    by_cases hfield : field = "Submachine" <;>
      simp [gap?, Gap.openState?, GapKind.ofSlot, hfield]
  | _ => simp [gap?, Gap.openState?]

end Defects

namespace StateMachine

/-- The two layers of an examination agree on what is missing at the own places of a machine. Where
no duplicate is reported and no vertex lists a state of another region, they report the same
elements without an ID, the same ends of transitions and the same states without their machine, each
as often. In any case an end of a transition that leads to an unknown ID is also reported as outside
its region. -/
theorem layers_agree (m : StateMachine) (options : Options)
    (hm : (Element.stateMachine m).Coherent) :
    let rules := (m.breaches { options }).filter (·.place.IsOwn)
    let defects := ((Element.stateMachine m).integrityDefects options []).filter (·.place.IsOwn)
    ((∀ d ∈ (Element.stateMachine m).integrityDefects options [], d.cause.isDuplicate = false) →
      m.KeepsListings →
        (Breaches.blankIds rules).Perm (Defects.blankIds defects) ∧
        (Breaches.openEnds rules).Perm (Defects.openEnds defects) ∧
        (Breaches.openStates rules).Perm (Defects.openStates defects)) ∧
    ∀ d ∈ defects, d.type = .transition → ∀ field id, d.cause = .unknownTarget field id →
      ∃ side region, side.field = field ∧
        ⟨.transition, d.place, .endOutsideRegion side id region⟩ ∈ rules := by
  intro rules defects
  constructor
  · intro hduplicates hkeeps
    have hdistinct := Element.not_refuses_of_no_duplicate hduplicates
    have hdefects : (Defects.gaps defects).Perm _ := gaps_integrityDefects hm hdistinct hkeeps
    have hgaps : (Breaches.gaps rules).Perm (Defects.gaps defects) :=
      gaps_breaches.trans hdefects.symm
    rw [Breaches.blankIds_eq, Breaches.openEnds_eq, Breaches.openStates_eq, Defects.blankIds_eq,
      Defects.openStates_eq, Defects.openEnds_eq]
    · exact ⟨hgaps.filterMap _, hgaps.filterMap _, hgaps.filterMap _⟩
    · intro g hg field hkind
      exact Encounter.type_of_mem_ownGaps (hdefects.subset hg) hkind
  · intro d hd htype field id hcause
    obtain ⟨hd, hown⟩ := List.mem_filter.1 hd
    obtain ⟨side, region, hfield, hmem⟩ :=
      endBreach_of_unknownTarget hd (by simpa using hown) htype hcause
    exact ⟨side, region, hfield, List.mem_filter.2 ⟨hmem, hown⟩⟩

/-- A draft: a region, a vertex and a machine below a state have no ID yet, a transition has no
source and leads nowhere, and a state does not say which machine it stands for. -/
def draft : StateMachine where
  id := "m"
  regions := [{
    id := ""
    states := [
      { id := "a", type := .state, isSubmachineState := true },
      { id := "b", type := .state, isSubmachineState := true, submachine := some { id := "" } }]
    vertices := [.vertex { id := "a", type := .state }, .vertex { id := "b", type := .state },
      .pseudostate (.initial "")]
    transitions := [{ id := "t", target := some { id := "z", type := .state } }] }]

/-- The place of the region of the draft. -/
def draftRegion : Locator := [.item "Regions" 0]

/-- Both layers find two IDs missing, one source and one machine; the ID that is missing in another
machine is no matter of the rules. -/
theorem draft_agreement :
    (Element.stateMachine draft).Coherent ∧ draft.KeepsListings ∧
      (Breaches.blankIds ((draft.breaches {}).filter (·.place.IsOwn))).Perm
        [(.region, draftRegion), (.pseudostate, draftRegion ++ [.item "Vertices" 2])] ∧
      (Breaches.openEnds ((draft.breaches {}).filter (·.place.IsOwn))).Perm
        [(draftRegion ++ [.item "Transitions" 0], "Source")] ∧
      (Breaches.openStates ((draft.breaches {}).filter (·.place.IsOwn))).Perm
        [(.state, draftRegion ++ [.item "States" 0])] ∧
      ∃ side region, side.field = "Target" ∧
        ⟨.transition, draftRegion ++ [.item "Transitions" 0], .endOutsideRegion side "z" region⟩ ∈
          (draft.breaches {}).filter (·.place.IsOwn) := by
  have hcoherent : (Element.stateMachine draft).Coherent :=
    (Element.unshared_of_tree (by cbv)).coherent
  have hkeeps : draft.KeepsListings := keepsListings_iff.2 (by cbv)
  have hdistinct : ((Element.stateMachine draft).integrityDefects {} []).all
      (!·.cause.isDuplicate) = true := by cbv
  have hduplicates : ∀ d ∈ (Element.stateMachine draft).integrityDefects {} [],
      d.cause.isDuplicate = false := by simpa using hdistinct
  have hids : Defects.blankIds (((Element.stateMachine draft).integrityDefects {} []).filter
      (·.place.IsOwn)) =
        [(.region, draftRegion), (.pseudostate, draftRegion ++ [.item "Vertices" 2])] := by cbv
  have hends : Defects.openEnds (((Element.stateMachine draft).integrityDefects {} []).filter
      (·.place.IsOwn)) = [(draftRegion ++ [.item "Transitions" 0], "Source")] := by cbv
  have hstates : Defects.openStates (((Element.stateMachine draft).integrityDefects {} []).filter
      (·.place.IsOwn)) = [(.state, draftRegion ++ [.item "States" 0])] := by cbv
  have hunknown : ⟨.transition, draftRegion ++ [.item "Transitions" 0],
      .unknownTarget "Target" "z"⟩ ∈
        ((Element.stateMachine draft).integrityDefects {} []).filter (·.place.IsOwn) :=
    List.elem_iff.1 (by cbv)
  obtain ⟨hagree, hoff⟩ := layers_agree draft {} hcoherent
  rw [← hids, ← hends, ← hstates]
  obtain ⟨hids, hends, hstates⟩ := hagree hduplicates hkeeps
  exact ⟨hcoherent, hkeeps, hids, hends, hstates, hoff _ hunknown rfl _ _ rfl⟩

end StateMachine

end Statechart
