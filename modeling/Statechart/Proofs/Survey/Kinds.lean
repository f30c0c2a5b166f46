import Statechart.Proofs.Survey.Frame
import Statechart.Proofs.Survey.Order

/-! Which elements can be parts of which, and which pairs of encounters the survey may take for one
element. States and plain vertices are held by regions, which list their states first. -/

namespace Statechart

namespace Element

theorem allows_of_mem_parts {e : Element} {p : Part} (h : p ∈ e.parts) :
    p.role.relation.allows e.type p.element.type = true := by
  cases e with
  | stateMachine m =>
    rcases mem_parts_stateMachine.1 h with h | h <;> obtain ⟨i, hi, rfl⟩ := Part.mem_ofList.1 h <;>
      rfl
  | region r =>
    rcases mem_parts_region.1 h with h | h | h <;> obtain ⟨i, hi, rfl⟩ := Part.mem_ofList.1 h
    · rfl
    · cases r.vertices[i] <;> rfl
    · rfl
  | state s =>
    rcases mem_parts_state.1 h with h | h | ⟨m, -, rfl⟩
    · obtain ⟨i, hi, rfl⟩ := Part.mem_ofList.1 h
      rfl
    · obtain ⟨i, hi, rfl⟩ := Part.mem_ofList.1 h
      rfl
    · rfl
  | connectionPointReference c =>
    rcases mem_parts_connectionPointReference.1 h with h | h <;>
      obtain ⟨i, hi, rfl⟩ := Part.mem_ofList.1 h <;> rfl
  | vertex v => cases h
  | pseudostate p => cases h
  | finalState f => cases h
  | transition t => cases h

theorem pseudostate_of_isPoint {e : Element} {p : Part} (h : p ∈ e.parts)
    (hrole : p.role.isPoint = true) : ∃ q, p.element = .pseudostate q := by
  cases e with
  | stateMachine m =>
    rcases mem_parts_stateMachine.1 h with h | h <;> obtain ⟨i, hi, rfl⟩ := Part.mem_ofList.1 h
    · cases hrole
    · exact ⟨_, rfl⟩
  | region r =>
    rcases mem_parts_region.1 h with h | h | h <;> obtain ⟨i, hi, rfl⟩ := Part.mem_ofList.1 h <;>
      cases hrole
  | state s =>
    rcases mem_parts_state.1 h with h | h | ⟨m, -, rfl⟩
    · obtain ⟨i, hi, rfl⟩ := Part.mem_ofList.1 h
      cases hrole
    · obtain ⟨i, hi, rfl⟩ := Part.mem_ofList.1 h
      cases hrole
    · cases hrole
  | connectionPointReference c =>
    rcases mem_parts_connectionPointReference.1 h with h | h <;>
      obtain ⟨i, hi, rfl⟩ := Part.mem_ofList.1 h <;> exact ⟨_, rfl⟩
  | vertex v => cases h
  | pseudostate p => cases h
  | finalState f => cases h
  | transition t => cases h

/-- Connection point references have points as parts, and nothing else has such parts. -/
theorem role_eq_referencePoint_iff {e : Element} {p : Part} (hp : p ∈ e.parts) :
    p.role = .referencePoint ↔ e.type = .connectionPointReference := by
  cases e with
  | stateMachine m =>
    rcases mem_parts_stateMachine.1 hp with hp | hp <;>
      obtain ⟨i, hi, rfl⟩ := Part.mem_ofList.1 hp <;> exact iff_of_false nofun nofun
  | region r =>
    rcases mem_parts_region.1 hp with hp | hp | hp <;>
      obtain ⟨i, hi, rfl⟩ := Part.mem_ofList.1 hp <;> exact iff_of_false nofun nofun
  | state s =>
    rcases mem_parts_state.1 hp with hp | hp | ⟨m, -, rfl⟩
    · obtain ⟨i, hi, rfl⟩ := Part.mem_ofList.1 hp
      exact iff_of_false nofun nofun
    · obtain ⟨i, hi, rfl⟩ := Part.mem_ofList.1 hp
      exact iff_of_false nofun nofun
    · exact iff_of_false nofun nofun
  | connectionPointReference x =>
    rcases mem_parts_connectionPointReference.1 hp with hp | hp <;>
      obtain ⟨i, hi, rfl⟩ := Part.mem_ofList.1 hp <;> exact iff_of_true rfl rfl
  | vertex v => cases hp
  | pseudostate p => cases hp
  | finalState x => cases hp
  | transition t => cases hp

theorem relation_of_mem_parts {e : Element} {p : Part} (h : p ∈ e.parts) :
    p.role.relation = .submachine ↔ p.element.type = .stateMachine := by
  have := allows_of_mem_parts h
  cases hr : p.role.relation <;> rw [hr] at this
  · refine ⟨nofun, ?_⟩
    intro htype
    rw [htype] at this
    cases e <;> cases this
  · simp only [Relation.allows, EntityType.mayStandFor, Bool.and_eq_true, decide_eq_true_eq] at this
    simp [this.2]

theorem relation_eq_containment {e : Element} {p : Part} (h : p ∈ e.parts)
    (htype : p.element.type ≠ .stateMachine) : p.role.relation = .containment := by
  cases hr : p.role.relation with
  | containment => rfl
  | submachine => exact absurd ((relation_of_mem_parts h).1 hr) htype

/-- Only machines are shared. -/
theorem definition?_eq_none {e : Element} (h : e.type ≠ .stateMachine) : e.definition? = none := by
  cases e <;> first | rfl | exact absurd rfl h

theorem type_of_definition? {e : Element} {n : ℕ} (h : e.definition? = some n) :
    e.type = .stateMachine := by
  by_contra hne
  rw [definition?_eq_none hne] at h
  cases h

theorem isListingPair_types {e f : Element} (h : e.isListingPair f = true) :
    (∃ s, e = .state s ∧ f = .vertex s.toVertex) ∨ ∃ s, f = .state s ∧ e = .vertex s.toVertex := by
  unfold isListingPair at h
  split at h
  · next s v =>
    obtain rfl : s.toVertex = v := by simpa using h
    exact .inl ⟨s, rfl, rfl⟩
  · next v s =>
    obtain rfl : s.toVertex = v := by simpa using h
    exact .inr ⟨s, rfl, rfl⟩
  · cases h

theorem isListingPair_comm (e f : Element) : e.isListingPair f = f.isListingPair e := by
  cases e <;> cases f <;> rfl

/-- A listing joins a state and a vertex. -/
theorem types_of_isListingPair {e f : Element} (h : e.isListingPair f = true) :
    e.type = .state ∧ f.type = .vertex ∨ e.type = .vertex ∧ f.type = .state := by
  rcases isListingPair_types h with ⟨s, rfl, rfl⟩ | ⟨s, rfl, rfl⟩ <;> simp [type]

theorem type_ne_of_isListingPair {e f : Element} (h : e.isListingPair f = true) :
    e.type ≠ .stateMachine ∧ f.type ≠ .stateMachine := by
  rcases types_of_isListingPair h with ⟨he, hf⟩ | ⟨he, hf⟩ <;> simp [he, hf]

end Element

namespace Encounter

theorem isSamePoint_iff {x y : Encounter} :
    x.isSamePoint y = true ↔ ∃ p, x.element = .pseudostate p ∧ y.element = .pseudostate p ∧
      x.role.isPoint = true ∧ y.role.isPoint = true ∧
      (x.role = .referencePoint ∨ y.role = .referencePoint) := by
  unfold isSamePoint
  split
  · next p q hp hq =>
    simp only [Bool.and_eq_true, Bool.or_eq_true, decide_eq_true_eq, hp, hq,
      Element.pseudostate.injEq, and_assoc]
    constructor
    · rintro ⟨rfl, hroles⟩
      exact ⟨p, rfl, rfl, hroles⟩
    · rintro ⟨p', rfl, rfl, hroles⟩
      exact ⟨rfl, hroles⟩
  · next hnone =>
    refine ⟨nofun, ?_⟩
    rintro ⟨p, hp, hq, -⟩
    exact absurd hq (hnone p p hp)

theorem element_eq_of_isSamePoint {x y : Encounter} (h : x.isSamePoint y = true) :
    x.element = y.element := by
  obtain ⟨p, hp, hq, -⟩ := isSamePoint_iff.1 h
  rw [hp, hq]

theorem types_of_isSamePoint {x y : Encounter} (h : x.isSamePoint y = true) :
    x.element.type = .pseudostate ∧ y.element.type = .pseudostate := by
  obtain ⟨p, hp, hq, -⟩ := isSamePoint_iff.1 h
  rw [hp, hq]
  exact ⟨rfl, rfl⟩

theorem isListing_iff {x y : Encounter} :
    x.isListing y = true ↔ x.element.isListingPair y.element = true ∧ x.owner = y.owner := by
  simp only [isListing, Bool.and_eq_true, decide_eq_true_eq]

theorem types_of_isListing {x y : Encounter} (h : x.isListing y = true) :
    x.element.type = .state ∧ y.element.type = .vertex ∨
      x.element.type = .vertex ∧ y.element.type = .state :=
  Element.types_of_isListingPair (isListing_iff.1 h).1

end Encounter

namespace Element

variable {e : Element} {p q : Part}

theorem eq_region_of_mem_parts (hp : p ∈ e.parts)
    (htype : p.element.type = .state ∨ p.element.type = .vertex) : ∃ r, e = .region r := by
  have hallows := allows_of_mem_parts hp
  cases hr : p.role.relation <;> rcases htype with htype | htype <;> rw [hr, htype] at hallows <;>
    cases e <;> first | exact ⟨_, rfl⟩ | cases hallows

/-- A region lists its states before its vertices. -/
theorem state_before_vertex (hp : p ∈ e.parts) (hq : q ∈ e.parts)
    (hstate : p.element.type = .state) (hvertex : q.element.type = .vertex) :
    [p, q].Sublist e.parts := by
  obtain ⟨r, rfl⟩ := eq_region_of_mem_parts hp (.inl hstate)
  have hp' : p ∈ Part.ofList .member "States" state r.states := by
    rcases mem_parts_region.1 hp with hp | hp | hp
    · exact hp
    · obtain ⟨i, hi, rfl⟩ := Part.mem_ofList.1 hp
      cases hv : r.vertices[i] <;> rw [hv] at hstate <;> cases hstate
    · obtain ⟨i, hi, rfl⟩ := Part.mem_ofList.1 hp
      cases hstate
  have hq' : q ∈ Part.ofList .member "Vertices" RegionVertex.element r.vertices := by
    rcases mem_parts_region.1 hq with hq | hq | hq
    · obtain ⟨i, hi, rfl⟩ := Part.mem_ofList.1 hq
      cases hvertex
    · exact hq
    · obtain ⟨i, hi, rfl⟩ := Part.mem_ofList.1 hq
      cases hvertex
  have hpair : [p, q].Sublist (Part.ofList .member "States" state r.states ++
      Part.ofList .member "Vertices" RegionVertex.element r.vertices) :=
    (List.singleton_sublist.2 hp').append (List.singleton_sublist.2 hq')
  exact hpair.trans (List.sublist_append_left _ _)

theorem region_of_transition (hp : p ∈ e.parts) (htype : p.element.type = .transition) :
    ∃ r, e = .region r ∧ p ∈ Part.ofList .member "Transitions" transition r.transitions := by
  have hallows := allows_of_mem_parts hp
  rw [htype] at hallows
  cases e with
  | region r =>
    refine ⟨r, rfl, ?_⟩
    rcases mem_parts_region.1 hp with hp | hp | hp
    · obtain ⟨i, hi, rfl⟩ := Part.mem_ofList.1 hp
      cases htype
    · obtain ⟨i, hi, rfl⟩ := Part.mem_ofList.1 hp
      cases hv : r.vertices[i] <;> rw [hv] at htype <;> cases htype
    · exact hp
  | _ => cases hr : p.role.relation <;> rw [hr] at hallows <;> cases hallows

end Element

theorem RegionVertex.id_element (v : RegionVertex) : v.element.id = v.id := by cases v <;> rfl

/-- A member of a region is one of its states or vertices. -/
theorem Region.exists_part_of_hasMember {r : Region} {id : String} (h : r.hasMember id = true) :
    ∃ q ∈ (Element.region r).parts, q.element.id = id ∧ q.element.type.isVertex = true := by
  rcases Bool.or_eq_true_iff.1 h with h | h
  · obtain ⟨v, hv⟩ := Option.isSome_iff_exists.1 h
    have hid : v.id = id := by simpa using List.find?_some hv
    obtain ⟨i, hi, rfl⟩ := List.mem_iff_getElem.1 (List.mem_of_find?_eq_some hv)
    refine ⟨_, Element.mem_parts_region.2 (.inr (.inl (Part.mem_ofList.2 ⟨i, hi, rfl⟩))), ?_⟩
    rw [← hid]
    cases r.vertices[i] <;> exact ⟨rfl, rfl⟩
  · obtain ⟨s, hs⟩ := Option.isSome_iff_exists.1 h
    have hid : s.id = id := by simpa using List.find?_some hs
    obtain ⟨i, hi, rfl⟩ := List.mem_iff_getElem.1 (List.mem_of_find?_eq_some hs)
    exact ⟨_, Element.mem_parts_region.2 (.inl (Part.mem_ofList.2 ⟨i, hi, rfl⟩)), hid, rfl⟩

namespace Encounter

theorem pseudostate_of_isPoint {e : Element} {place : Locator} {x : Encounter}
    (hx : x ∈ (ofRoot e place).tree) (hrole : x.role.isPoint = true) :
    ∃ q, x.element = .pseudostate q := by
  rcases eq_or_part_of_mem_tree hx with rfl | ⟨z, -, p, hp, rfl⟩
  · cases hrole
  · exact Element.pseudostate_of_isPoint hp hrole

theorem tree_of_leaf {x : Encounter} (h : x.type = .vertex ∨ x.type = .pseudostate) :
    x.tree = [x] := by
  have hparts : x.element.parts = [] := by
    unfold type at h
    cases hx : x.element <;> rw [hx] at h <;> first | rfl | simp [Element.type] at h
  rw [tree_eq, hparts]
  rfl

end Encounter

end Statechart
