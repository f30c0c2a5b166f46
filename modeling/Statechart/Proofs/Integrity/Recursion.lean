import Statechart.Proofs.Integrity.CycleReport

/-! Recursion through IDs. An element that holds its own ID, or that of an element around it, is not
entered a second time, but the edge to it was recorded before that, and so was each edge on the way
down to its owner. So the search from that ID comes back to the owner. -/

namespace Statechart

namespace Encounter

theorem way_eq_of_along_eq {x : Encounter} {way way' : List Part} {f g : Element}
    (h : x.element.Leads way f) (h' : x.element.Leads way' g)
    (heq : x.along way = x.along way') : way = way' := by
  have hplace := congrArg Encounter.place heq
  rw [place_along, place_along] at hplace
  exact (h.unique h' (List.append_cancel_left hplace)).1

end Encounter

namespace Walk

variable {e : Element} {place : Locator} {w : Walk}

theorem Reachable.leads (h : Reachable e place w) {x : Encounter} (hx : x ∈ w.met) :
    ∃ way, e.Leads way x.element ∧ x = (Encounter.ofRoot e place).along way :=
  Encounter.mem_tree.1 (h.met_subset hx)

theorem Reachable.last_step (h : Reachable e place w) {way : List Part} {p : Part} {f : Element}
    (hway : e.Leads (way ++ [p]) f)
    (hx : (Encounter.ofRoot e place).along (way ++ [p]) ∈ w.met) :
    (Encounter.ofRoot e place).along way ∈ w.met ∧
      w.survey.Linked ((Encounter.ofRoot e place).along way) p := by
  -- it was met as a part of some encounter, and its place tells of which one
  rcases h.ready.2 _ hx with heq | ⟨y, hy, q, hq, heq, -, hlinked⟩
  · have hstart : (Encounter.ofRoot e place).element.Leads [] e := rfl
    have hnil : way ++ [p] = [] := Encounter.way_eq_of_along_eq hway hstart heq
    simp at hnil
  · obtain ⟨way', hway', rfl⟩ := h.leads hy
    rw [← Encounter.along_snoc] at heq
    have hways := Encounter.way_eq_of_along_eq hway (hway'.snoc hq) heq
    obtain ⟨rfl, hpq⟩ := List.append_inj' hways rfl
    cases hpq
    exact ⟨hy, hlinked⟩

theorem Reachable.reaches (h : Reachable e place w) {r : Relation} {above : List Part}
    {a : Element} (ha : e.Leads above a) (hid : a.HasId) (way : List Part) {f : Element}
    (hway : a.Leads way f) (hids : ∀ p ∈ way, p.element.HasId)
    (hroles : ∀ p ∈ way, r = .containment → p.role.relation = .containment)
    (hx : (Encounter.ofRoot e place).along (above ++ way) ∈ w.met) :
    (w.survey.graph r).Reaches a.id f.id := by
  -- from the end of the way, since an encounter tells only of the step that led to it
  induction way using List.reverseRecOn generalizing f with
  | nil =>
    obtain rfl : a = f := hway
    exact .refl
  | append_singleton way p ih =>
    obtain ⟨g, hg, hp, hpf⟩ := Element.leads_append.1 hway
    obtain rfl : p.element = f := hpf
    rw [← List.append_assoc] at hx
    have hlead : e.Leads (above ++ way) g := Element.leads_append.2 ⟨a, ha, hg⟩
    obtain ⟨hmet, hlinked⟩ := h.last_step (hlead.snoc hp) hx
    have hgid : g.HasId := by
      rcases List.eq_nil_or_concat way with rfl | ⟨way', q, rfl⟩
      · obtain rfl : a = g := hg
        exact hid
      · obtain ⟨_, -, -, hqg⟩ := Element.leads_append.1 (List.concat_eq_append ▸ hg)
        obtain rfl : q.element = g := hqg
        exact hids q (by simp)
    have helement : ((Encounter.ofRoot e place).along (above ++ way)).element = g :=
      Encounter.element_along hlead
    have hedge : (g.id, p.element.id) ∈ w.survey.edges p.role.relation := by
      have := hlinked (helement ▸ hgid) (hids p (by simp))
      rwa [Encounter.id, helement] at this
    have hgraph : (w.survey.graph r).Edge g.id p.element.id :=
      Survey.mem_graph_of_mem_edges hedge (hroles p (by simp))
    exact .tail (ih hg (fun q hq => hids q (by simp [hq]))
      (fun q hq => hroles q (by simp [hq])) hmet) hgraph

end Walk

namespace Element

variable {e : Element} {place : Locator}

/-- A recorded element whose part has the ID of an element above it: the step to the part is on a
reported cycle, or the search for one was broken off. -/
theorem recursion_reported (options : Options) {r : Relation} {x : Encounter}
    (hx : x ∈ (e.survey place).entries) {c : Part} (hc : c ∈ x.element.parts)
    (hrole : c.role.relation = r) {above way : List Part} {a : Element}
    (hplace : x.place = place ++ (above ++ way).map (·.step)) (ha : e.Leads above a)
    (hway : a.Leads way x.element) (hid : a.HasId) (hids : ∀ p ∈ way, p.element.HasId)
    (hroles : ∀ p ∈ way, r = .containment → p.role.relation = .containment)
    (hsame : c.element.id = a.id) :
    (∃ nodes ∈ (e.integrityDefects options place).cycles r, (x.id, c.element.id) ∈ steps nodes) ∨
      ∃ path, ⟨x.type, x.place, .tooDeep r x.id options.maxCycleDepth path⟩ ∈
        e.integrityDefects options place := by
  obtain ⟨met, hreach⟩ := Walk.survey_reachable e place
  have hmet : x ∈ met := hreach.entries_subset hx
  have hxway : x = (Encounter.ofRoot e place).along (above ++ way) := by
    obtain ⟨way', hlead, hx⟩ := hreach.leads hmet
    have hsteps := congrArg Encounter.place hx
    rw [Encounter.place_along, hplace] at hsteps
    have hlead' : e.Leads (above ++ way) x.element := leads_append.2 ⟨a, ha, hway⟩
    rw [(hlead'.unique hlead (List.append_cancel_left hsteps)).1]
    exact hx
  have hcid : c.element.HasId := by
    unfold HasId
    rw [hsame]
    exact hid
  have hedge : (x.id, c.element.id) ∈ (e.survey place).edges r :=
    hrole ▸ (hreach.parts_met rfl hx hc).1 (hreach.entries.1 x hx) hcid
  have hback : ((e.survey place).graph r).Reaches c.element.id x.id := by
    rw [hsame]
    exact hreach.reaches ha hid way hway hids hroles (hxway ▸ hmet)
  rcases Survey.reported_of_reaches options.maxCycleDepth hedge hback with hcycle | ⟨path, hpath⟩
  · left
    rw [cycles_integrityDefects]
    exact hcycle
  · right
    refine ⟨path, ?_⟩
    have := tooDeep_mem_integrityDefects hpath
    unfold Survey.defectAt at this
    rw [hreach.entry?_eq_some hx] at this
    exact this

/-- A state that stands for a machine with its own ID or with the ID of an element above it is on a
reported cycle, and so is an element that owns one; or the search was broken off there. -/
theorem recursion_never_missed (options : Options) (x : Encounter)
    (hx : x ∈ (e.survey place).entries) (above way : List Part) (a : Element)
    (hplace : x.place = place ++ (above ++ way).map (·.step)) (ha : e.Leads above a)
    (hway : a.Leads way x.element) (hid : a.HasId) (hids : ∀ p ∈ way, p.element.HasId) :
    (∀ s m, x.element = .state s → s.submachine = some m → m.id = a.id →
      (∃ nodes ∈ (e.integrityDefects options place).cycles .submachine,
        (s.id, m.id) ∈ steps nodes) ∨
      ∃ path, ⟨.state, x.place, .tooDeep .submachine s.id options.maxCycleDepth path⟩ ∈
        e.integrityDefects options place) ∧
    ((∀ p ∈ way, p.role ≠ .submachine) →
      ∀ c ∈ x.element.parts, c.role ≠ .submachine → c.element.id = a.id →
      (∃ nodes ∈ (e.integrityDefects options place).cycles .containment,
        (x.id, c.element.id) ∈ steps nodes) ∨
      ∃ path, ⟨x.type, x.place, .tooDeep .containment x.id options.maxCycleDepth path⟩ ∈
        e.integrityDefects options place) := by
  have hcontainment (role : Role) (h : role ≠ .submachine) : role.relation = .containment := by
    cases role <;> first | rfl | exact absurd rfl h
  constructor
  · intro s m hs hm hsame
    have hc : (⟨.submachine, .field "Submachine", .stateMachine m⟩ : Part) ∈ x.element.parts := by
      rw [hs]
      simp [parts, hm]
    have hrole : Role.relation .submachine = .submachine := rfl
    have := recursion_reported options hx hc hrole hplace ha hway hid hids
      (fun _ _ h => by cases h) hsame
    simpa [Encounter.id, Encounter.type, hs, id, type] using this
  · intro howned c hc hrole hsame
    exact recursion_reported options hx hc (hcontainment _ hrole) hplace ha hway hid hids
      (fun p hp _ => hcontainment _ (howned p hp)) hsame

/-- A state that holds both a region and a machine with the ID of the machine around it. -/
def knotted : State where
  id := "s"
  type := .state
  regions := [{ id := "m" }]
  isSubmachineState := true
  submachine := some { id := "m" }

def knot : Element := .stateMachine { id := "m", regions := [{ id := "r", states := [knotted] }] }

theorem knot_reported :
    ∃ x ∈ (knot.survey []).entries, x.element = .state knotted ∧
      ((∃ nodes ∈ (knot.integrityDefects {} []).cycles .submachine, ("s", "m") ∈ steps nodes) ∨
        ∃ path, ⟨.state, x.place, .tooDeep .submachine "s" 100 path⟩ ∈
          knot.integrityDefects {} []) ∧
      ((∃ nodes ∈ (knot.integrityDefects {} []).cycles .containment, ("s", "m") ∈ steps nodes) ∨
        ∃ path, ⟨.state, x.place, .tooDeep .containment "s" 100 path⟩ ∈
          knot.integrityDefects {} []) := by
  obtain ⟨x, hx, helement, hplace⟩ : ∃ x, (knot.survey []).entries[2]? = some x ∧
      x.element = .state knotted ∧ x.place = [.item "Regions" 0, .item "States" 0] :=
    ⟨_, by cbv, rfl, rfl⟩
  have hmem : x ∈ (knot.survey []).entries := List.mem_of_getElem? hx
  let way : List Part :=
    [⟨.member, .item "Regions" 0, .region { id := "r", states := [knotted] }⟩,
      ⟨.member, .item "States" 0, .state knotted⟩]
  have hway : knot.Leads way x.element := by
    rw [helement]
    exact ⟨.head _, .head _, rfl⟩
  have hids : ∀ p ∈ way, p.element.HasId := by decide
  have hroles : ∀ p ∈ way, p.role ≠ .submachine := by decide
  obtain ⟨hsub, hown⟩ :=
    recursion_never_missed {} x hmem [] way knot hplace rfl hway (by decide) hids
  have hregion : (⟨.member, .item "Regions" 0, .region { id := "m" }⟩ : Part) ∈
      x.element.parts := by
    rw [helement]
    exact .head _
  have hcontained := hown hroles _ hregion (by decide) rfl
  rw [Encounter.id, Encounter.type, helement] at hcontained
  exact ⟨x, hmem, helement, hsub knotted { id := "m" } helement rfl rfl, hcontained⟩

end Element

end Statechart
