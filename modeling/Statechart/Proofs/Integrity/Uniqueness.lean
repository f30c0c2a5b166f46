import Statechart.Model.Build
import Statechart.Proofs.Integrity.Descent
import Statechart.Proofs.Survey.Listing

/-! What an ID stands for where no duplicate was reported. Let every region have an ID. The walk
then stops short only at an instance that it has walked over before, at a point, or at a vertex that
lists a state, so it comes to every instance there is; and each instance with an ID is the one that
was recorded for the ID, or a point equal to it, or the one vertex that lists it. -/

namespace Statechart

namespace Encounter

/-- One is a state and the other a vertex with the shape of that state. They are parts of one
region, which holds no other vertex with that shape. -/
def IsSoleListing (x root y : Encounter) : Prop :=
  ∃ s, x.element = .state s ∧ y.element = .vertex s.toVertex ∧
    ∃ z ∈ root.tree, ∃ p ∈ z.element.parts, ∃ q ∈ z.element.parts, z.type = .region ∧
      x.origin = (z.part p).origin ∧ y.origin = (z.part q).origin ∧
      ∀ q' ∈ z.element.parts, q'.element = .vertex s.toVertex → q' = q

/-- Equal pseudostates, each held as a connection point of a machine or named by a connection point
reference. -/
def IsPointPair (x y : Encounter) : Prop :=
  ∃ p, x.element = .pseudostate p ∧ y.element = .pseudostate p ∧ x.role.isPoint = true ∧
    y.role.isPoint = true

theorem isPointPair_of_isSamePoint {x y : Encounter} (h : x.isSamePoint y = true) :
    x.IsPointPair y := by
  unfold isSamePoint at h
  split at h
  · next p q hp hq =>
    simp only [Bool.and_eq_true, decide_eq_true_eq] at h
    obtain ⟨⟨⟨rfl, hx⟩, hy⟩, -⟩ := h
    exact ⟨p, hp, hq, hx, hy⟩
  · cases h

end Encounter

namespace Walk

variable {e : Element} {place : Locator} {w : Walk} {x y first : Encounter}

theorem Reachable.listing_parts (h : Reachable e place w)
    (hregions : ∀ z ∈ w.met, z.type = .region → z.element.HasId)
    (hx : x ∈ w.met) (hfirst : first ∈ w.survey.entries) (hid : first.id = x.id)
    (hlisting : first.isListing x = true) :
    ∃ z ∈ w.survey.entries, ∃ p ∈ z.element.parts, ∃ q ∈ z.element.parts,
      first = z.part p ∧ x = z.part q ∧
        ∃ s, p.element = .state s ∧ q.element = .vertex s.toVertex := by
  have hpair := hlisting
  simp only [Encounter.isListing, Bool.and_eq_true, decide_eq_true_eq] at hpair
  obtain ⟨hpair, howner⟩ := hpair
  have htypes : (first.element.type = .state ∨ first.element.type = .vertex) ∧
      (x.element.type = .state ∨ x.element.type = .vertex) := by
    rcases Element.isListingPair_types hpair with ⟨s, hs, hv⟩ | ⟨s, hs, hv⟩ <;> rw [hs, hv] <;>
      simp [Element.type]
  -- an owner of states and vertices is a region, so it has an ID
  have owned {y : Encounter} (hy : y ∈ w.met)
      (htype : y.element.type = .state ∨ y.element.type = .vertex) :
      y = .ofRoot e place ∨ y.owner.isSome := by
    rcases h.ready.2 y hy with rfl | ⟨z, hz, p, hp, rfl, -, -⟩
    · exact .inl rfl
    · obtain ⟨r, hr⟩ := Element.eq_region_of_mem_parts hp htype
      have hzid := hregions z hz (by rw [Encounter.type, hr]; rfl)
      right
      rw [Encounter.owner_part, Encounter.knownId?_eq_some.2 ⟨hzid, rfl⟩]
      rfl
  have hmet : first ∈ w.met := h.entries_subset hfirst
  have hknown : first.owner.isSome := by
    rcases owned hmet htypes.1 with rfl | hknown
    · rcases owned hx htypes.2 with rfl | hknown
      · exact absurd hlisting (Encounter.not_isListing_of_element_eq rfl)
      · rwa [howner]
    · exact hknown
  obtain ⟨z, hz, p, hp, q, hq, rfl, rfl⟩ :=
    h.siblings (h.ready.2 _ hmet) (h.ready.2 _ hx) howner.symm hknown
  refine ⟨z, hz, p, hp, q, hq, rfl, rfl, ?_⟩
  rcases h.first_precedes hx hfirst hid with heq | horder
  · exact absurd hlisting (Encounter.not_isListing_of_element_eq (congrArg _ heq))
  · exact Encounter.listing_of_precedes (h.met_subset (h.entries_subset hz)) hp hq horder hpair

/-- What an encounter is to the entry for its ID, where no duplicate was reported. -/
theorem Reachable.account_cases (h : Reachable e place w)
    (hregions : ∀ z ∈ w.met, z.type = .region → z.element.HasId)
    (hdistinct : ∀ id, ¬ w.survey.Refuses id) (hx : x ∈ w.met) (hid : x.element.HasId) :
    ∃ first ∈ w.survey.entries, first.id = x.id ∧
      (first.origin = x.origin ∨ first.isSamePoint x = true ∨ first.isListing x = true ∧
        ∃ z ∈ w.survey.entries, ∃ p ∈ z.element.parts, ∃ q ∈ z.element.parts,
          first = z.part p ∧ x = z.part q ∧
            ∃ s, p.element = .state s ∧ q.element = .vertex s.toVertex) := by
  obtain ⟨first, hfirst, hfid, haccounts⟩ := h.accounted hx hid
  refine ⟨first, hfirst, hfid, ?_⟩
  rcases haccounts with rfl | horigin | hpoint | hlisting | hrefused
  · exact .inl rfl
  · exact .inl horigin
  · exact .inr (.inl hpoint)
  · exact .inr (.inr ⟨hlisting, h.listing_parts hregions hx hfirst hfid hlisting⟩)
  · exact absurd hrefused (hdistinct _)

/-- An instance with parts was entered at the first encounter with its ID, or has no ID. -/
theorem Reachable.entered_instance (h : Reachable e place w) (he : e.Coherent)
    (hregions : ∀ z ∈ w.met, z.type = .region → z.element.HasId)
    (hdistinct : ∀ id, ¬ w.survey.Refuses id) (hx : x ∈ w.met) {p : Part}
    (hp : p ∈ x.element.parts) :
    ∃ y ∈ w.met, w.survey.Entered y ∧ y.origin = x.origin ∧ y.element = x.element := by
  by_cases hid : x.element.HasId
  · obtain ⟨first, hfirst, -, hcases⟩ := h.account_cases hregions hdistinct hx hid
    have hmet : first ∈ w.met := h.entries_subset hfirst
    rcases hcases with horigin | hpoint | ⟨-, z, -, p', -, q, -, -, rfl, s, -, hq⟩
    · have helement :=
        Encounter.element_eq_of_origin_eq he (h.met_subset hmet) (h.met_subset hx) horigin
      exact ⟨first, hmet, fun _ => hfirst, horigin, helement⟩
    · obtain ⟨p', -, hpseudo, -⟩ := Encounter.isPointPair_of_isSamePoint hpoint
      rw [hpseudo] at hp
      cases hp
    · rw [Encounter.element_part, hq] at hp
      cases hp
  · exact ⟨x, hx, fun hid' => absurd hid' hid, rfl, rfl⟩

theorem Reachable.instance_met (h : Reachable e place w) (hdone : w.agenda = []) (he : e.Coherent)
    (hregions : ∀ z ∈ w.met, z.type = .region → z.element.HasId)
    (hdistinct : ∀ id, ¬ w.survey.Refuses id) :
    ∀ x ∈ (Encounter.ofRoot e place).tree,
      ∃ y ∈ w.met, y.origin = x.origin ∧ y.element = x.element ∧ y.role = x.role := by
  refine Encounter.tree_induction ?_ ?_
  · exact ⟨_, h.root_met hdone, rfl, rfl, rfl⟩
  · intro x _ ⟨y, hy, horigin, helement, _⟩ p hp
    rw [← helement] at hp
    obtain ⟨z, hz, hentered, hzorigin, hzelement⟩ :=
      h.entered_instance he hregions hdistinct hy hp
    have hpart := h.part_met hdone hz hentered (hzelement ▸ hp)
    refine ⟨z.part p, hpart, ?_, rfl, rfl⟩
    rw [Encounter.part, Encounter.part, hzorigin, horigin]

theorem Reachable.represented (h : Reachable e place w) (hdone : w.agenda = []) (he : e.Coherent)
    (hregions : ∀ z ∈ (Encounter.ofRoot e place).tree, z.type = .region → z.element.HasId)
    (hdistinct : ∀ id, ¬ w.survey.Refuses id) :
    ∀ x ∈ (Encounter.ofRoot e place).tree,
      ∃ y ∈ w.met, y.origin = x.origin ∧ y.element = x.element ∧ y.role = x.role :=
  h.instance_met hdone he (fun z hz => hregions z (h.met_subset hz)) hdistinct

theorem Reachable.sole_listing (h : Reachable e place w) (hdone : w.agenda = []) (he : e.Coherent)
    (hdistinct : ∀ id, ¬ w.survey.Refuses id) {z : Encounter} (hz : z ∈ w.survey.entries)
    {p q : Part} (hfirst : z.part p ∈ w.survey.entries) (hq : q ∈ z.element.parts)
    (hid : (z.part p).id = (z.part q).id) (hlisting : (z.part p).isListing (z.part q) = true) :
    ∀ q' ∈ z.element.parts, q'.element = q.element → q' = q := by
  intro q' hq' hsame
  have hmet : z.part q ∈ w.met := (h.parts_met hdone hz hq).2
  have hmet' : z.part q' ∈ w.met := (h.parts_met hdone hz hq').2
  have hid' : (z.part p).id = (z.part q').id := by
    rw [hid]
    exact congrArg Element.id hsame.symm
  have hlisting' : (z.part p).isListing (z.part q') = true := by
    simpa [Encounter.isListing, hsame] using hlisting
  rcases (h.listed he).once _ hfirst _ hmet' _ hmet hid' hlisting' hid hlisting with heq | hrefused
  · have hplace := congrArg Encounter.place heq
    have hstep : q'.step = q.step := by simpa [Encounter.part] using hplace
    exact Element.eq_of_step_eq hq' hq hstep
  · exact absurd hrefused (hdistinct _)

/-- What an encounter is to the entry for its ID: an encounter of the same instance, of a point
equal to it, or of the state that it lists. -/
inductive Standing (root first x : Encounter) : Prop where
  | same (h : first.origin = x.origin)
  | point (h : first.IsPointPair x)
  | listing (hlisting : first.isListing x = true) (h : first.IsSoleListing root x)

theorem Reachable.standing (h : Reachable e place w) (hdone : w.agenda = []) (he : e.Coherent)
    (hregions : ∀ z ∈ (Encounter.ofRoot e place).tree, z.type = .region → z.element.HasId)
    (hdistinct : ∀ id, ¬ w.survey.Refuses id) (hx : x ∈ w.met) (hid : x.element.HasId) :
    ∃ first ∈ w.survey.entries, first.id = x.id ∧
      Standing (.ofRoot e place) first x := by
  obtain ⟨first, hfirst, hfid, hcases⟩ :=
    h.account_cases (fun z hz => hregions z (h.met_subset hz)) hdistinct hx hid
  refine ⟨first, hfirst, hfid, ?_⟩
  rcases hcases with horigin | hpoint | ⟨hlisting, z, hz, p, hp, q, hq, rfl, rfl, s, hs, hv⟩
  · exact .same horigin
  · exact .point (Encounter.isPointPair_of_isSamePoint hpoint)
  · have hsole := h.sole_listing hdone he hdistinct hz hfirst hq hfid hlisting
    obtain ⟨r, hr⟩ := Element.eq_region_of_mem_parts hp (.inl (by rw [hs]; rfl))
    have htype : z.type = .region := by
      rw [Encounter.type, hr]
      rfl
    rw [hv] at hsole
    exact .listing hlisting ⟨s, hs, hv, z, h.met_subset (h.entries_subset hz), p, hp, q, hq, htype,
      rfl, rfl, hsole⟩

end Walk

namespace Encounter

variable {e : Element} {place : Locator} {root first x y x' y' : Encounter}

theorem IsSoleListing.of_origin (h : x'.IsSoleListing root y') (hx : x'.origin = x.origin)
    (hx' : x'.element = x.element) (hy : y'.origin = y.origin) (hy' : y'.element = y.element) :
    x.IsSoleListing root y := by
  unfold IsSoleListing at h ⊢
  rwa [← hx, ← hx', ← hy, ← hy']

theorem IsPointPair.symm (h : x.IsPointPair y) : y.IsPointPair x := by
  obtain ⟨p, hx, hy, hrx, hry⟩ := h
  exact ⟨p, hy, hx, hry, hrx⟩

theorem IsPointPair.trans (hx : first.IsPointPair x) (hy : first.IsPointPair y) :
    x.IsPointPair y := by
  obtain ⟨p, hp, hxp, -, hrx⟩ := hx
  obtain ⟨q, hq, hyq, -, hry⟩ := hy
  cases hp.symm.trans hq
  exact ⟨p, hxp, hyq, hrx, hry⟩

theorem IsPointPair.of_origin (he : e.Coherent) (h : first.IsPointPair y)
    (hfirst : first ∈ (ofRoot e place).tree) (hx : x ∈ (ofRoot e place).tree)
    (horigin : first.origin = x.origin) : x.IsPointPair y := by
  obtain ⟨p, hp, hyp, hrole, hry⟩ := h
  have helement := element_eq_of_origin_eq he hfirst hx horigin
  have hxp : x.element = .pseudostate p := helement.symm.trans hp
  have hdef : x.element.definition? = none := by
    rw [hxp]
    rfl
  exact ⟨p, hxp, hyp, role_eq_of_origin_eq he hfirst hx hdef horigin ▸ hrole, hry⟩

theorem not_isSoleListing_of_isPointPair (h : first.IsPointPair x) :
    ¬ first.IsSoleListing root y := by
  rintro ⟨s, hs, -⟩
  obtain ⟨p, hp, -⟩ := h
  cases hs.symm.trans hp

end Encounter

namespace Element

variable {e : Element} {options : Options} {place : Locator}

/-- Two instances that stand to one entry are a state and its listing or a pair of points, unless
both list the state that has the entry. -/
theorem clash_of_standing (he : e.Coherent) {first x y : Encounter}
    (hfirst : first ∈ (Encounter.ofRoot e place).tree) (hx : x ∈ (Encounter.ofRoot e place).tree)
    (hy : y ∈ (Encounter.ofRoot e place).tree)
    (hxs : Walk.Standing (.ofRoot e place) first x) (hys : Walk.Standing (.ofRoot e place) first y)
    (hne : x.origin ≠ y.origin)
    (honce : first.isListing x = true → first.isListing y = true → x = y) :
    x.IsSoleListing (.ofRoot e place) y ∨ y.IsSoleListing (.ofRoot e place) x ∨
      x.IsPointPair y := by
  have element {z : Encounter} (hz : z ∈ (Encounter.ofRoot e place).tree)
      (horigin : first.origin = z.origin) : first.element = z.element :=
    Encounter.element_eq_of_origin_eq he hfirst hz horigin
  cases hxs with
  | same hx' =>
    cases hys with
    | same hy' => exact absurd (hx'.symm.trans hy') hne
    | point hy' => exact .inr (.inr (hy'.of_origin he hfirst hx hx'))
    | listing _ hy' => exact .inl (hy'.of_origin hx' (element hx hx') rfl rfl)
  | point hx' =>
    cases hys with
    | same hy' => exact .inr (.inr (hx'.of_origin he hfirst hy hy').symm)
    | point hy' => exact .inr (.inr (hx'.trans hy'))
    | listing _ hy' => exact absurd hy' (Encounter.not_isSoleListing_of_isPointPair hx')
  | listing hxl hx' =>
    cases hys with
    | same hy' => exact .inr (.inl (hx'.of_origin hy' (element hy hy') rfl rfl))
    | point hy' => exact absurd hx' (Encounter.not_isSoleListing_of_isPointPair hy')
    | listing hyl hy' => exact absurd (congrArg Encounter.origin (honce hxl hyl)) hne

/-- Where no duplicate is reported and every region has an ID, two instances with one ID are a state
and the only vertex of its region that lists it, or two equal points. -/
theorem instances_of_id (he : e.Coherent)
    (hregions : ∀ z ∈ (Encounter.ofRoot e place).tree, z.type = .region → z.element.HasId)
    (h : ∀ d ∈ e.integrityDefects options place, d.cause.isDuplicate = false) :
    ∀ x ∈ (Encounter.ofRoot e place).tree, ∀ y ∈ (Encounter.ofRoot e place).tree,
      x.element.HasId → x.id = y.id → x.origin ≠ y.origin →
        x.IsSoleListing (.ofRoot e place) y ∨ y.IsSoleListing (.ofRoot e place) x ∨
          x.IsPointPair y := by
  intro x hx y hy hid hsame hne
  have hdistinct := not_refuses_of_no_duplicate h
  obtain ⟨met, hreach⟩ := Walk.survey_reachable e place
  have represented := hreach.represented rfl he hregions hdistinct
  obtain ⟨x', hx', hxo, hxe, hxr⟩ := represented x hx
  obtain ⟨y', hy', hyo, hye, hyr⟩ := represented y hy
  have hxid : x'.id = x.id := congrArg Element.id hxe
  have hyid : y'.id = y.id := congrArg Element.id hye
  obtain ⟨first, hfirst, hfid, hxs⟩ := hreach.standing rfl he hregions hdistinct hx'
    ((Encounter.hasId_congr hxid).2 hid)
  obtain ⟨first', hfirst', hfid', hys⟩ := hreach.standing rfl he hregions hdistinct hy'
    ((Encounter.hasId_congr (hyid.trans hsame.symm)).2 hid)
  have hids : first.id = first'.id := by rw [hfid, hfid', hxid, hyid, hsame]
  obtain rfl := hreach.eq_of_id_eq hfirst hfirst' hids
  have honce : first.isListing x' = true → first.isListing y' = true → x' = y' := by
    intro hxl hyl
    rcases (hreach.listed he).once first hfirst x' hx' y' hy' hfid hxl hfid' hyl with heq | hrefused
    · exact heq
    · exact absurd hrefused (hdistinct _)
  have hpair := clash_of_standing he (hreach.met_subset (hreach.entries_subset hfirst))
    (hreach.met_subset hx') (hreach.met_subset hy') hxs hys (by rwa [hxo, hyo]) honce
  rcases hpair with hpair | hpair | ⟨p, hxp, hyp, hrx, hry⟩
  · exact .inl (hpair.of_origin hxo hxe hyo hye)
  · exact .inr (.inl (hpair.of_origin hyo hye hxo hxe))
  · exact .inr (.inr ⟨p, hxe ▸ hxp, hye ▸ hyp, hxr ▸ hrx, hyr ▸ hry⟩)

/-- Two states that stand for one machine. The first one names the entry point of the machine. -/
def ferry (x : StateMachine) : Element := .stateMachine {
  id := "m"
  regions := [{
    id := "r"
    states := [
      { id := "a"
        type := .state
        isSubmachineState := true
        submachine := some x
        connections := [
          { id := "c", type := .pseudostate, entry := [.named "p" "" .entryPoint] }] },
      { id := "b", type := .state, isSubmachineState := true, submachine := some x }]
    vertices := [.vertex { id := "a", type := .state }, .vertex { id := "b", type := .state }] }] }

def harbour (shared : Option Nat) : StateMachine where
  id := "n"
  connectionPoints := [.named "p" "" .entryPoint]
  shared := shared

def crossing : Element := ferry (harbour (some 0))

def crossingTree : List Encounter := (Encounter.ofRoot crossing []).tree

/-- The state and the vertex with the ID `b` are one listing, the points with the ID `p` a pair. -/
theorem ferry_ids :
    (∀ d ∈ crossing.integrityDefects {} [], d.cause.isDuplicate = false) ∧
      (∃ x y : Encounter, x.id = "b" ∧ y.id = "b" ∧ x.origin ≠ y.origin ∧
        x.IsSoleListing (.ofRoot crossing []) y) ∧
      ∃ x y : Encounter, x.id = "p" ∧ y.id = "p" ∧ x.origin ≠ y.origin ∧ x.IsPointPair y := by
  have hlink : (ferry { id := "@0" }).link (Sharing.define [harbour none]) = crossing := by cbv
  have hcoherent : crossing.Coherent := by
    rw [← hlink]
    apply coherent_link
    · intro m hm
      obtain rfl := List.mem_singleton.1 hm
      exact unshared_of_tree (by cbv)
    · exact unshared_of_tree (by cbv)
  have hregions : ∀ z ∈ crossingTree, z.type = .region → z.element.HasId := by
    have hall : crossingTree.all (fun z => z.type ≠ .region ∨ z.element.HasId) = true := by cbv
    intro z hz htype
    simpa [htype] using List.all_eq_true.1 hall z hz
  have h : ∀ d ∈ crossing.integrityDefects {} [], d.cause.isDuplicate = false := by
    have hall : (crossing.integrityDefects {} []).all (!·.cause.isDuplicate) = true := by cbv
    simpa using hall
  have hids {i j : ℕ} {x y : Encounter} (hx : crossingTree[i]? = some x)
      (hy : crossingTree[j]? = some y) :=
    instances_of_id hcoherent hregions h x (List.mem_of_getElem? hx) y (List.mem_of_getElem? hy)
  refine ⟨h, ?_, ?_⟩
  · obtain ⟨x, hx, hxid, hxtype, hxo⟩ : ∃ x, crossingTree[7]? = some x ∧ x.id = "b" ∧
        x.type = .state ∧ x.origin.steps = [.item "Regions" 0, .item "States" 1] :=
      ⟨_, by cbv, rfl, rfl, rfl⟩
    obtain ⟨y, hy, hyid, hytype, hyo⟩ : ∃ y, crossingTree[11]? = some y ∧ y.id = "b" ∧
        y.type = .vertex ∧ y.origin.steps = [.item "Regions" 0, .item "Vertices" 1] :=
      ⟨_, by cbv, rfl, rfl, rfl⟩
    have hne : x.origin ≠ y.origin := fun heq => by simp [heq, hyo, Segment.item] at hxo
    have hid : x.element.HasId := by
      rw [HasId, show x.element.id = "b" from hxid]
      decide
    rcases hids hx hy hid (hxid.trans hyid.symm) hne with hpair | ⟨s, hs, -⟩ | ⟨p, hp, -⟩
    · exact ⟨x, y, hxid, hyid, hne, hpair⟩
    · simp [Encounter.type, hs, type] at hytype
    · simp [Encounter.type, hp, type] at hxtype
  · obtain ⟨x, hx, hxid, hxtype, hxo⟩ : ∃ x, crossingTree[4]? = some x ∧ x.id = "p" ∧
        x.type = .pseudostate ∧ x.origin.definition = none := ⟨_, by cbv, rfl, rfl, rfl⟩
    obtain ⟨y, hy, hyid, hytype, hyo⟩ : ∃ y, crossingTree[9]? = some y ∧ y.id = "p" ∧
        y.type = .pseudostate ∧ y.origin.definition = some 0 := ⟨_, by cbv, rfl, rfl, rfl⟩
    have hne : x.origin ≠ y.origin := fun heq => by simp [heq, hyo] at hxo
    have hid : x.element.HasId := by
      rw [HasId, show x.element.id = "p" from hxid]
      decide
    rcases hids hx hy hid (hxid.trans hyid.symm) hne with ⟨s, hs, -⟩ | ⟨s, hs, -⟩ | hpair
    · simp [Encounter.type, hs, type] at hxtype
    · simp [Encounter.type, hs, type] at hytype
    · exact ⟨x, y, hxid, hyid, hne, hpair⟩

end Element

end Statechart
