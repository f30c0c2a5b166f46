import Statechart.Proofs.Agreement.Ends
import Statechart.Proofs.Integrity.Uniqueness
import Statechart.Validation

/-! The points that connection point references name. The rules look for such a point among the
connection points of the machine by its ID only, and they judge its kind by what the reference
itself says of it. Where the integrity check finds nothing either, all that stands under one ID is
one element, so the reference and the machine agree on the point in everything. -/

namespace Statechart

namespace Walk

variable {e : Element} {place : Locator} {w : Walk} {x y : Encounter}

theorem Reachable.hasId_of_no_report (h : Reachable e place w)
    (hclear : ∀ d ∈ w.survey.defects, d.cause ≠ .noId) : ∀ x ∈ w.met, x.element.HasId := by
  induction h with
  | refl => exact fun x hx => absurd hx List.not_mem_nil
  | tail hreach hstep ih =>
    have hmet := ih fun d hd => hclear d (hstep.grows.defects hd)
    have meet {y : Encounter} {met : List Encounter} {s : Survey}
        (hmet : ∀ x ∈ met, x.element.HasId) (hclear : ∀ d ∈ (s.meet y).defects, d.cause ≠ .noId) :
        ∀ x ∈ met ++ [y], x.element.HasId := by
      intro x hx
      rcases List.mem_append.1 hx with hx | hx
      · exact hmet x hx
      · obtain rfl := List.mem_singleton.1 hx
        by_contra hblank
        rw [Survey.meet_of_blank hblank] at hclear
        exact hclear _ (List.mem_append_right _ (.head _)) rfl
    cases hstep with
    | pass => exact meet hmet hclear
    | enter => exact meet hmet hclear
    | follow => exact hmet
    | settle => exact hmet

theorem Reachable.element_eq_of_id_eq (h : Reachable e place w) (he : e.Coherent)
    (hregions : ∀ z ∈ w.met, z.type = .region → z.element.HasId)
    (hdistinct : ∀ id, ¬ w.survey.Refuses id) (hx : x ∈ w.met) (hy : y ∈ w.met)
    (hid : x.element.HasId) (hsame : x.id = y.id) (hxt : x.type ≠ .vertex)
    (hyt : y.type ≠ .vertex) : x.element = y.element := by
  -- both are the first element with the ID
  have eq_first {z : Encounter} (hz : z ∈ w.met) (hzid : z.element.HasId) (hzt : z.type ≠ .vertex) :
      ∃ first ∈ w.survey.entries, first.id = z.id ∧ first.element = z.element := by
    obtain ⟨first, hfirst, hfid, horigin | hpoint | ⟨-, o, -, p, -, q, -, -, rfl, s, -, hq⟩⟩ :=
      h.account_cases hregions hdistinct hz hzid
    · exact ⟨first, hfirst, hfid, Encounter.element_eq_of_origin_eq he
        (h.met_subset (h.entries_subset hfirst)) (h.met_subset hz) horigin⟩
    · exact ⟨first, hfirst, hfid, Encounter.element_eq_of_isSamePoint hpoint⟩
    · exact absurd (congrArg Element.type hq) hzt
  obtain ⟨first, hfirst, hfid, hfx⟩ := eq_first hx hid hxt
  obtain ⟨first', hfirst', hfid', hfy⟩ := eq_first hy ((Encounter.hasId_congr hsame).1 hid) hyt
  obtain rfl := h.eq_of_id_eq hfirst hfirst' (by rw [hfid, hfid', hsame])
  rw [← hfx, hfy]

end Walk

namespace Element

variable {e : Element} {options : Options} {place : Locator} {x y : Encounter}

theorem eq_of_id_eq (he : e.Coherent) (h : e.integrityDefects options place = [])
    (hx : x ∈ (Encounter.ofRoot e place).tree) (hy : y ∈ (Encounter.ofRoot e place).tree)
    (hid : x.element.HasId) (hsame : x.id = y.id) (hxt : x.type ≠ .vertex)
    (hyt : y.type ≠ .vertex) : x.element = y.element := by
  obtain ⟨met, hreach⟩ := Walk.survey_reachable e place
  have hnone : ∀ d ∈ e.integrityDefects options place, d.cause.isDuplicate = false := by simp [h]
  have hdistinct := not_refuses_of_no_duplicate hnone
  have hclear : ∀ d ∈ (e.survey place).defects, d.cause ≠ .noId := by
    intro d hd
    have hmem : d ∈ e.integrityDefects options place := mem_integrityDefects.2 (.inl hd)
    rw [h] at hmem
    cases hmem
  have hregions (z : Encounter) (hz : z ∈ met) (_ : z.type = .region) : z.element.HasId :=
    hreach.hasId_of_no_report hclear z hz
  obtain ⟨x', hx', -, hxe, -⟩ := hreach.instance_met rfl he hregions hdistinct x hx
  obtain ⟨y', hy', -, hye, -⟩ := hreach.instance_met rfl he hregions hdistinct y hy
  have hxid : x'.id = x.id := congrArg Element.id hxe
  have hyid : y'.id = y.id := congrArg Element.id hye
  have htype {z z' : Encounter} (hz : z'.element = z.element) : z'.type = z.type :=
    congrArg Element.type hz
  rw [← hxe, ← hye]
  exact hreach.element_eq_of_id_eq he hregions hdistinct hx' hy'
    ((Encounter.hasId_congr hxid).2 hid) (by rw [hxid, hyid, hsame]) (htype hxe ▸ hxt)
    (htype hye ▸ hyt)

end Element

theorem ConnectionPointReference.exists_part {x : ConnectionPointReference} {side : PointSide}
    {p : Pseudostate} (hp : p ∈ x.points side) :
    ∃ q ∈ (Element.connectionPointReference x).parts, q.element = .pseudostate p := by
  cases side with
  | entry =>
    obtain ⟨i, hi, rfl⟩ := List.mem_iff_getElem.1 hp
    exact ⟨_, Element.mem_parts_connectionPointReference.2 (.inl (Part.mem_ofList.2 ⟨i, hi, rfl⟩)),
      rfl⟩
  | exit =>
    obtain ⟨i, hi, rfl⟩ := List.mem_iff_getElem.1 hp
    exact ⟨_, Element.mem_parts_connectionPointReference.2 (.inr (Part.mem_ofList.2 ⟨i, hi, rfl⟩)),
      rfl⟩

namespace StateMachine

/-- In a machine without findings, the points that an own state names are connection points of the
machine that the state stands for, alike in ID, name, type and kind, and of the kind that belongs on
their side. -/
theorem named_points_declared (m : StateMachine) (options : Options)
    (hm : (Element.stateMachine m).Coherent) (h : m.validate options = []) :
    ∀ x ∈ m.tree, x.place.IsOwn → ∀ s, x.element = .state s → ∀ c ∈ s.connections, ∀ side,
      ∀ p ∈ c.points side, s.isSubmachineState = true ∧
        (∃ n, s.submachine = some n ∧ p ∈ n.connectionPoints) ∧ p.kind = side.kind := by
  intro x hx hown s hs c hc side p hp
  obtain ⟨hrules, hintegrity⟩ := List.append_eq_nil_iff.1 h
  -- the rules find a point of the machine with the ID
  obtain ⟨context, -, hsubset⟩ := exists_own_breaches options x hx hown
    (.inr (.inr (congrArg Element.type hs)))
  rw [List.map_eq_nil_iff.1 hrules, List.subset_nil, hs] at hsubset
  obtain ⟨hflag, n, hn⟩ := State.standIn_of_breaches hsubset (List.ne_nil_of_mem hc)
  obtain ⟨hid, hkind, q, hq, hsame⟩ := State.point_of_breaches hsubset hc hp hflag hn
  refine ⟨hflag, ⟨n, hn, ?_⟩, hkind⟩
  -- both points are met by a walk that never stops short
  obtain ⟨i, hi, rfl⟩ := List.mem_iff_getElem.1 hc
  have hreference := Encounter.part_mem_tree hx
    (hs ▸ Element.mem_parts_state.2 (.inr (.inl (Part.mem_ofList.2 ⟨i, hi, rfl⟩))))
  obtain ⟨pp, hpp, hpe⟩ := ConnectionPointReference.exists_part hp
  have hnamed := Encounter.part_mem_tree hreference hpp
  have hmachine := Encounter.part_mem_tree hx
    (hs ▸ Element.mem_parts_state.2 (.inr (.inr ⟨n, hn, rfl⟩)))
  obtain ⟨j, hj, rfl⟩ := List.mem_iff_getElem.1 hq
  have hdeclared := Encounter.part_mem_tree hmachine
    (Element.mem_parts_stateMachine.2 (.inr (Part.mem_ofList.2 ⟨j, hj, rfl⟩)))
  have hpoint (q : Pseudostate) : (Element.pseudostate q).type ≠ .vertex := by simp [Element.type]
  have heq := Element.eq_of_id_eq hm (List.map_eq_nil_iff.1 hintegrity) hnamed hdeclared
    (by rw [Encounter.element_part, hpe]; exact hid)
    (by rw [Encounter.id, Encounter.element_part, hpe]; exact hsame.symm)
    (by rw [Encounter.type, Encounter.element_part, hpe]; exact hpoint p) (hpoint _)
  rw [Encounter.element_part, hpe] at heq
  exact Element.pseudostate.inj heq ▸ hq

/-- A machine with a point on each side. -/
def dock (shared : Option Nat) : StateMachine where
  id := "n"
  connectionPoints := [.named "p" "" .entryPoint, .named "o" "" .exitPoint]
  shared := shared

/-- A state that leaves the machine by its exit point, to which it gives a name. -/
def leaving (x : StateMachine) (name : String) : State where
  id := "b"
  type := .state
  isSubmachineState := true
  submachine := some x
  connections := [{ id := "d", type := .pseudostate, exit := [.named "o" name .exitPoint] }]

/-- Two states that stand for one machine. One names the entry point, the other the exit point. -/
def pier (x : StateMachine) (name : String) : StateMachine where
  id := "m"
  regions := [{
    id := "r"
    states := [
      { id := "a"
        type := .state
        isSubmachineState := true
        submachine := some x
        connections := [
          { id := "c", type := .pseudostate, entry := [.named "p" "" .entryPoint] }] },
      leaving x name]
    vertices := [.vertex { id := "a", type := .state }, .vertex { id := "b", type := .state }] }]

/-- The machine is accepted, so the exit point is declared as it is named. With another name the
rules accept the machine still, but the point is not one that is declared. -/
theorem pier_points_declared :
    ((pier (dock (some 0)) "").validate {} = [] ∧ ∃ n, (leaving (dock (some 0)) "").submachine
      = some n ∧ Pseudostate.named "o" "" .exitPoint ∈ n.connectionPoints) ∧
    (pier (dock (some 0)) "way out").ruleFindings {} = [] ∧
      (pier (dock (some 0)) "way out").validate {} ≠ [] := by
  have hcoherent (name : String)
      (hlink : (Element.stateMachine (pier { id := "@0" } name)).link
        (Sharing.define [dock none]) = .stateMachine (pier (dock (some 0)) name))
      (hunshared : (Encounter.ofRoot (.stateMachine (pier { id := "@0" } name)) []).tree.all
        (·.element.definition?.isNone) = true) :
      (Element.stateMachine (pier (dock (some 0)) name)).Coherent := by
    rw [← hlink]
    apply Element.coherent_link
    · intro m hm
      obtain rfl := List.mem_singleton.1 hm
      exact Element.unshared_of_tree (by cbv)
    · exact Element.unshared_of_tree hunshared
  have hplain := hcoherent "" (by cbv) (by cbv)
  have hnamed := hcoherent "way out" (by cbv) (by cbv)
  have hvalid : (pier (dock (some 0)) "").validate {} = [] := by cbv
  have hrules : (pier (dock (some 0)) "way out").ruleFindings {} = [] := by cbv
  have declared (name : String) (hm : (Element.stateMachine (pier (dock (some 0)) name)).Coherent)
      (h : (pier (dock (some 0)) name).validate {} = [])
      (hx : ∃ x, (pier (dock (some 0)) name).tree[8]? = some x ∧ x.place.IsOwn ∧
        x.element = .state (leaving (dock (some 0)) name)) :
      ∃ n, (leaving (dock (some 0)) name).submachine = some n ∧
        Pseudostate.named "o" name .exitPoint ∈ n.connectionPoints := by
    obtain ⟨x, hx, hown, hs⟩ := hx
    exact (named_points_declared _ {} hm h x (List.mem_of_getElem? hx) hown _ hs _ (.head _) .exit _
      (.head _)).2.1
  refine ⟨⟨hvalid, declared "" hplain hvalid ⟨_, by cbv, by decide, rfl⟩⟩, hrules, ?_⟩
  intro h
  obtain ⟨n, hn, hmem⟩ := declared "way out" hnamed h ⟨_, by cbv, by decide, rfl⟩
  cases hn
  revert hmem
  decide

end StateMachine

end Statechart
