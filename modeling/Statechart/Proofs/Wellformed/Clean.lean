import Statechart.Entity
import Statechart.Proofs.Survey.Tree

/-! What it means that the rules find nothing wrong. An element without a breach has an ID, and so
have all that it owns; the ends of a transition are set and belong to the region of the transition;
a state that holds no machine declares none and names no points of one. -/

namespace Statechart

namespace Context

variable {c : Context} {bad : Prop} [Decidable bad] {type : EntityType} {cause : Breach}

theorem mem_breachIf {d : Located Breach} :
    d ∈ c.breachIf bad type cause ↔ bad ∧ d = ⟨type, c.place, cause⟩ := by
  unfold breachIf
  split <;> simp_all

theorem breachIf_eq_nil : c.breachIf bad type cause = [] ↔ ¬ bad := by
  unfold breachIf
  split <;> simp_all

theorem require_eq_nil {field value : String} :
    c.require type field value = [] ↔ Text.isBlank value = false := by
  rw [require, breachIf_eq_nil, Bool.not_eq_true]

end Context

open Context (breachIf_eq_nil require_eq_nil)

/-- Where the rules for the members of a list find nothing, they find nothing for any of them. -/
theorem exists_of_flatMap_zipIdx {α β : Type} {l : List α} {f : α × ℕ → List β}
    (h : l.zipIdx.flatMap f = []) {x : α} (hx : x ∈ l) : ∃ i, f (x, i) = [] := by
  obtain ⟨i, hi, rfl⟩ := List.mem_iff_getElem.1 hx
  have hmem : (l[i], i) ∈ l.zipIdx :=
    List.mk_mem_zipIdx_iff_getElem?.2 (List.getElem?_eq_getElem hi)
  exact ⟨i, List.flatMap_eq_nil_iff.1 h _ hmem⟩

/-- Both ends are set, and an end that has an ID is a member of the region. -/
def Transition.EndsIn (t : Transition) (r : Region) : Prop :=
  ∀ side, ∃ v, t.atEnd side = some v ∧ (Text.isBlank v.id = false → r.hasMember v.id = true)

/-- In some surroundings the rules find nothing wrong with the element and what it owns. -/
def Element.Clean (e : Element) : Prop := ∃ c, e.breaches c = []

namespace Vertex

variable {c : Context} {type : EntityType} {v : Vertex}

theorem hasId_of_shape (h : v.shapeBreaches c type = []) : Text.isBlank v.id = false :=
  require_eq_nil.1 (List.append_eq_nil_iff.1 h).1

end Vertex

namespace Transition

variable {c : Context} {r : Region} {t : Transition}

theorem breaches_eq_nil (h : t.breaches c = []) :
    Text.isBlank t.id = false ∧ ∀ side, (t.atEnd side).isSome := by
  simp only [breaches, List.append_eq_nil_iff, List.flatMap_eq_nil_iff, breachIf_eq_nil,
    require_eq_nil] at h
  obtain ⟨⟨⟨⟨⟨⟨hid, hends⟩, -⟩, -⟩, -⟩, -⟩, -⟩ := h
  refine ⟨hid, ?_⟩
  intro side
  have := hends side (by cases side <;> decide)
  simpa [Option.isSome_iff_ne_none] using this

/-- A transition that the rules accept within its region ends there. -/
theorem endsIn_of_breaches (h : t.breaches c = []) (hscope : t.scopeBreaches c r = []) :
    t.EndsIn r := by
  intro side
  obtain ⟨v, hv⟩ := Option.isSome_iff_exists.1 ((breaches_eq_nil h).2 side)
  refine ⟨v, hv, ?_⟩
  intro hid
  simp only [scopeBreaches, List.append_eq_nil_iff, List.flatMap_eq_nil_iff] at hscope
  have := hscope.1 side (by cases side <;> decide)
  simp only [endBreaches, hv, breachIf_eq_nil] at this
  simpa [hid] using this

end Transition

def RegionVertex.isOfKind (kind : PseudostateKind) : RegionVertex → Bool
  | pseudostate p => p.kind = kind
  | _ => false

namespace Region

variable {c : Context} {r : Region}

/-- How many pseudostates of a kind stand among the vertices. -/
theorem length_pseudostateIndices (r : Region) (kind : PseudostateKind) :
    (r.pseudostateIndices kind).length = r.vertices.countP (·.isOfKind kind) := by
  rw [pseudostateIndices, List.length_filterMap_eq_countP]
  conv_rhs => rw [← List.zipIdx_map_fst 0 r.vertices, List.countP_map]
  refine List.countP_congr ?_
  rintro ⟨v, i⟩ -
  cases v with
  | pseudostate p => by_cases h : p.kind = kind <;> simp [RegionVertex.isOfKind, h]
  | _ => simp [RegionVertex.isOfKind]

theorem breaches_eq (c : Context) (r : Region) :
    r.breaches c =
      (c.enterRegion r).require .region "ID" r.id ++ r.vertexBreaches (c.enterRegion r)
        ++ r.multiplicityBreaches (c.enterRegion r)
        ++ stateBreaches (c.enterRegion r) r r.states 0
        ++ r.transitionBreaches (c.enterRegion r) ++ r.initialBreaches (c.enterRegion r) := by
  cases r
  simp only [breaches]

theorem hasId_of_breaches (h : r.breaches c = []) : Text.isBlank r.id = false := by
  simp only [breaches_eq, List.append_eq_nil_iff, require_eq_nil] at h
  exact h.1.1.1.1.1

theorem clean_state (h : r.breaches c = []) {s : State} (hs : s ∈ r.states) :
    (Element.state s).Clean := by
  simp only [breaches_eq, List.append_eq_nil_iff, stateBreaches_eq_flatMap] at h
  obtain ⟨i, hi⟩ := exists_of_flatMap_zipIdx h.1.1.2 hs
  exact ⟨_, (List.append_eq_nil_iff.1 hi).2⟩

theorem clean_vertex (h : r.breaches c = []) {v : RegionVertex} (hv : v ∈ r.vertices) :
    v.element.Clean := by
  simp only [breaches_eq, List.append_eq_nil_iff] at h
  obtain ⟨i, hi⟩ := exists_of_flatMap_zipIdx h.1.1.1.1.2 hv
  cases v <;> exact ⟨_, hi⟩

theorem clean_transition (h : r.breaches c = []) {t : Transition} (ht : t ∈ r.transitions) :
    (Element.transition t).Clean ∧ t.EndsIn r := by
  simp only [breaches_eq, List.append_eq_nil_iff] at h
  obtain ⟨i, hi⟩ := exists_of_flatMap_zipIdx h.1.2 ht
  obtain ⟨hown, hscope⟩ := List.append_eq_nil_iff.1 hi
  exact ⟨⟨_, hown⟩, Transition.endsIn_of_breaches hown hscope⟩

theorem clean_of_mem_list {regions : List Region} (h : listBreaches c regions 0 = [])
    (hr : r ∈ regions) : (Element.region r).Clean := by
  rw [listBreaches_eq_flatMap] at h
  obtain ⟨i, hi⟩ := exists_of_flatMap_zipIdx h hr
  exact ⟨_, hi⟩

end Region

/-- A point without a breach has an ID and the kind that belongs on its side. -/
theorem Pseudostate.point_of_breaches {c : Context} {side : PointSide} {p : Pseudostate}
    (h : p.pointBreaches c side = []) : Text.isBlank p.id = false ∧ p.kind = side.kind := by
  rw [pointBreaches, List.append_eq_nil_iff, require_eq_nil] at h
  refine ⟨h.1, ?_⟩
  have hkind := h.2
  split at hkind <;> rw [breachIf_eq_nil] at hkind
  · exact not_not.1 hkind
  · exact absurd trivial hkind

namespace State

variable {c : Context} {s : State}

theorem breaches_eq (c : Context) (s : State) :
    s.breaches c =
      s.shapeBreaches c .state ++ s.tagBreaches c .state .state ++ s.compositionBreaches c
        ++ s.submachineBreaches c ++ s.actionBreaches c ++ Region.listBreaches c s.regions 0
        ++ (s.connections.zipIdx.flatMap fun x => x.1.breaches (c.item "Connections" x.2))
        ++ s.connectionBreaches c := by
  cases s
  simp only [breaches]

theorem hasId_of_breaches (h : s.breaches c = []) : Text.isBlank s.id = false := by
  simp only [breaches_eq, List.append_eq_nil_iff] at h
  exact Vertex.hasId_of_shape h.1.1.1.1.1.1.1

theorem clean_region (h : s.breaches c = []) {r : Region} (hr : r ∈ s.regions) :
    (Element.region r).Clean := by
  simp only [breaches_eq, List.append_eq_nil_iff] at h
  exact Region.clean_of_mem_list h.1.1.2 hr

/-- A state without a machine does not say that it stands for one, so it names no points. -/
theorem plain_of_breaches (h : s.breaches c = []) (hsub : s.submachine = none) :
    s.isSubmachineState = false ∧ s.connections = [] := by
  simp only [breaches_eq, List.append_eq_nil_iff] at h
  have hrules := h.1.1.1.1.2
  unfold submachineBreaches at hrules
  cases hflag : s.isSubmachineState with
  | true =>
    rw [if_pos hflag] at hrules
    simp only [standInBreaches, hsub, List.append_eq_nil_iff, breachIf_eq_nil] at hrules
    exact absurd trivial hrules.1.1
  | false =>
    rw [if_neg (by simp [hflag])] at hrules
    simp only [plainBreaches, hsub, List.append_eq_nil_iff, breachIf_eq_nil] at hrules
    exact ⟨rfl, not_not.1 hrules.2⟩

/-- A state that names points says that it stands for a machine and has one. -/
theorem standIn_of_breaches (h : s.breaches c = []) (hconnections : s.connections ≠ []) :
    s.isSubmachineState = true ∧ ∃ n, s.submachine = some n := by
  simp only [breaches_eq, List.append_eq_nil_iff] at h
  have hrules := h.1.1.1.1.2
  unfold submachineBreaches at hrules
  cases hflag : s.isSubmachineState with
  | true =>
    refine ⟨rfl, Option.ne_none_iff_exists'.1 ?_⟩
    intro hsub
    rw [if_pos hflag] at hrules
    simp only [standInBreaches, hsub, List.append_eq_nil_iff, breachIf_eq_nil] at hrules
    exact hrules.1.1 trivial
  | false =>
    rw [if_neg (by simp [hflag])] at hrules
    simp only [plainBreaches, List.append_eq_nil_iff, breachIf_eq_nil] at hrules
    exact absurd hconnections hrules.2

/-- A point that a state names has the kind that belongs on its side, and an ID that its machine
has for a connection point. -/
theorem point_of_breaches (h : s.breaches c = []) {x : ConnectionPointReference}
    (hx : x ∈ s.connections) {side : PointSide} {p : Pseudostate} (hp : p ∈ x.points side)
    (hflag : s.isSubmachineState = true) {n : StateMachine} (hsub : s.submachine = some n) :
    Text.isBlank p.id = false ∧ p.kind = side.kind ∧ ∃ q ∈ n.connectionPoints, q.id = p.id := by
  simp only [breaches_eq, List.append_eq_nil_iff] at h
  have hside : side ∈ PointSide.all := by cases side <;> decide
  obtain ⟨i, hi⟩ := exists_of_flatMap_zipIdx h.1.2 hx
  simp only [ConnectionPointReference.breaches, List.append_eq_nil_iff,
    List.flatMap_eq_nil_iff (l := PointSide.all)] at hi
  obtain ⟨j, hj⟩ := exists_of_flatMap_zipIdx (hi.2 side hside) hp
  obtain ⟨hid, hkind⟩ := Pseudostate.point_of_breaches hj
  refine ⟨hid, hkind, ?_⟩
  have hdeclared := h.2
  rw [connectionBreaches, hflag, hsub] at hdeclared
  obtain ⟨k, hk⟩ := exists_of_flatMap_zipIdx hdeclared hx
  obtain ⟨l, hl⟩ := exists_of_flatMap_zipIdx (List.flatMap_eq_nil_iff.1 hk side hside) hp
  rw [breachIf_eq_nil] at hl
  have hsome : n.connectionPoint? p.id ≠ none := by simpa [hid] using hl
  obtain ⟨q, hq⟩ := Option.ne_none_iff_exists'.1 hsome
  exact ⟨q, List.mem_of_find?_eq_some hq, by simpa using List.find?_some hq⟩

end State

namespace StateMachine

variable {c : Context} {m : StateMachine}

theorem hasId_of_breaches (h : m.breaches c = []) : Text.isBlank m.id = false := by
  simp only [breaches, List.append_eq_nil_iff, require_eq_nil] at h
  exact h.1.1.1.1

theorem clean_region (h : m.breaches c = []) {r : Region} (hr : r ∈ m.regions) :
    (Element.region r).Clean := by
  simp only [breaches, List.append_eq_nil_iff] at h
  exact Region.clean_of_mem_list h.2 hr

theorem clean_point (h : m.breaches c = []) {p : Pseudostate} (hp : p ∈ m.connectionPoints) :
    (Element.pseudostate p).Clean := by
  simp only [breaches, List.append_eq_nil_iff] at h
  obtain ⟨i, hi⟩ := exists_of_flatMap_zipIdx h.1.2 hp
  exact ⟨_, (List.append_eq_nil_iff.1 hi).2⟩

end StateMachine

namespace Element

variable {e : Element}

theorem Clean.hasId (h : e.Clean) : e.HasId := by
  obtain ⟨c, hc⟩ := h
  cases e with
  | stateMachine m => exact StateMachine.hasId_of_breaches hc
  | region r => exact Region.hasId_of_breaches hc
  | vertex v => exact Vertex.hasId_of_shape hc
  | state s => exact State.hasId_of_breaches hc
  | pseudostate p =>
    simp only [breaches, Pseudostate.breaches, List.append_eq_nil_iff] at hc
    exact Vertex.hasId_of_shape hc.1.1
  | finalState f =>
    simp only [breaches, FinalState.breaches, List.append_eq_nil_iff] at hc
    exact Vertex.hasId_of_shape hc.1
  | transition t => exact (Transition.breaches_eq_nil hc).1
  | connectionPointReference x =>
    simp only [breaches, ConnectionPointReference.breaches, List.append_eq_nil_iff] at hc
    exact Vertex.hasId_of_shape hc.1.1

/-- The parts of an element without a breach are without one, as far as they are its own: a machine
that a state stands for is not examined with the state. -/
theorem Clean.part (h : e.Clean) (hstate : ∀ s, e = .state s → s.submachine = none)
    (htype : e.type ≠ .connectionPointReference) {p : Part} (hp : p ∈ e.parts) :
    p.element.Clean ∧ p.element.type ≠ .connectionPointReference ∧
      (p.role = .member ∨ p.role = .machinePoint) := by
  obtain ⟨c, hc⟩ := h
  cases e with
  | stateMachine m =>
    rcases mem_parts_stateMachine.1 hp with hp | hp <;> obtain ⟨i, hi, rfl⟩ := Part.mem_ofList.1 hp
    · exact ⟨StateMachine.clean_region hc (List.getElem_mem hi), by simp [type], .inl rfl⟩
    · exact ⟨StateMachine.clean_point hc (List.getElem_mem hi), by simp [type], .inr rfl⟩
  | region r =>
    rcases mem_parts_region.1 hp with hp | hp | hp <;> obtain ⟨i, hi, rfl⟩ := Part.mem_ofList.1 hp
    · exact ⟨Region.clean_state hc (List.getElem_mem hi), by simp [type], .inl rfl⟩
    · refine ⟨Region.clean_vertex hc (List.getElem_mem hi), ?_, .inl rfl⟩
      cases r.vertices[i] <;> simp [RegionVertex.element, type]
    · exact ⟨(Region.clean_transition hc (List.getElem_mem hi)).1, by simp [type], .inl rfl⟩
  | state s =>
    have hsub := hstate s rfl
    obtain ⟨-, hconnections⟩ := State.plain_of_breaches hc hsub
    rcases mem_parts_state.1 hp with hp | hp | ⟨m, hm, -⟩
    · obtain ⟨i, hi, rfl⟩ := Part.mem_ofList.1 hp
      exact ⟨State.clean_region hc (List.getElem_mem hi), by simp [type], .inl rfl⟩
    · rw [hconnections] at hp
      cases hp
    · rw [hsub] at hm
      cases hm
  | connectionPointReference x => exact absurd rfl htype
  | vertex v => cases hp
  | pseudostate p => cases hp
  | finalState f => cases hp
  | transition t => cases hp

end Element

end Statechart
