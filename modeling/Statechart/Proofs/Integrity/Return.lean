import Statechart.Proofs.Integrity.Reuse

/-! Coming to an instance again. A machine may be reached through several states, and its parts are
walked over anew where no ID keeps the walk out. An instance that was accepted before is then
compared with the first element with its ID once more, and all but one of the reasons to accept it
hold again: only as a listing an instance is accepted once. -/

namespace Statechart

namespace Element

variable {e : Element} {options : Options} {place : Locator} {first : Encounter} {a b : Arrival}
  {log log' : List Arrival} {id : String}

theorem reported_at_iff (hb : b ∈ e.arrivals place) :
    (∃ d ∈ e.integrityDefects options place,
        d.cause.isDuplicate = true ∧ d.place = b.encounter.place) ↔
      b.recurrence? = some .duplicate := by
  constructor
  · rintro ⟨d, hd, hdup, hplace⟩
    obtain ⟨c, hc, hdc⟩ := Walk.mem_survey_defects.1 (mem_survey_of_isDuplicate hd hdup)
    obtain ⟨-, hcplace, ⟨-, hnoId⟩ | ⟨first, hid, hfirst, hr, -⟩⟩ := Arrival.mem_defects.1 hdc
    · rw [hnoId] at hdup
      cases hdup
    · obtain rfl := arrival_eq_of_place_eq hc hb (hcplace.symm.trans hplace)
      exact Arrival.recurrence?_eq_some.2 ⟨first, hid, hfirst, hr⟩
  · intro hr
    obtain ⟨first, hid, hfirst, hr⟩ := Arrival.recurrence?_eq_some.1 hr
    have hd : ⟨b.encounter.type, b.encounter.place,
        .duplicateId b.encounter.id first.type first.place⟩ ∈ b.defects :=
      Arrival.mem_defects.2 ⟨rfl, rfl, .inr ⟨first, hid, hfirst, hr, rfl⟩⟩
    exact ⟨_, mem_integrityDefects.2 (.inl (Walk.mem_survey_defects.2 ⟨b, hb, hd⟩)), rfl, rfl⟩

theorem owner_of_returned (he : e.Coherent) (h : e.arrivals place = log ++ b :: log')
    (ha : a ∈ log) (horigin : b.encounter.origin = a.encounter.origin)
    (hdef : a.encounter.element.definition? = none) : a.encounter.owner = none := by
  have hreach := Walk.reachable_survey e place
  have hamet : a.encounter ∈ e.encounters place :=
    List.mem_map_of_mem (h ▸ List.mem_append_left _ ha)
  have hbmet : b.encounter ∈ e.encounters place := List.mem_map_of_mem (h ▸ by simp)
  have haarrived := hreach.ready.2 _ hamet
  have hbarrived := hreach.ready.2 _ hbmet
  by_contra howner
  rcases haarrived with heq | ⟨z, hz, p, hp, heq, -⟩
  · exact howner (by rw [heq]; rfl)
  rw [heq] at horigin hdef howner
  have hztree := encounters_subset_tree hz
  obtain ⟨y, hytree, -, hye, hby⟩ := Encounter.exists_part_of_origin_eq he hztree hp hdef
    (encounters_subset_tree hbmet) horigin
  have hid : z.element.HasId := by
    by_contra hblank
    exact howner (Encounter.knownId?_eq_none.2 hblank)
  have hknown : y.knownId? = z.knownId? := by
    unfold Encounter.knownId? Encounter.id
    rw [hye]
  -- with an ID the owner would be entered only once
  have hzy := hreach.eq_of_owner_eq hztree (heq ▸ hreach.ready.2 _ hamet) hytree
    (hby ▸ hbarrived) hid hknown
  exact Walk.encounter_ne_of_mem h ha (by rw [heq, hby, hzy])

theorem isSamePoint_of_returned (he : e.Coherent) {x y : Encounter} (hx : x ∈ e.encounters place)
    (hy : y ∈ e.encounters place) (horigin : y.origin = x.origin)
    (h : first.isSamePoint x = true) : first.isSamePoint y = true := by
  have helement := Encounter.element_eq_of_origin_eq he (encounters_subset_tree hy)
    (encounters_subset_tree hx) horigin
  obtain ⟨p, hp, hxp, hfpoint, hxpoint, hroles⟩ := Encounter.isSamePoint_iff.1 h
  have hdef : x.element.definition? = none := by
    rw [hxp]
    rfl
  have hrole := Encounter.role_eq_of_origin_eq he (encounters_subset_tree hy)
    (encounters_subset_tree hx) hdef horigin
  exact Encounter.isSamePoint_iff.2
    ⟨p, hp, helement.trans hxp, hfpoint, hrole ▸ hxpoint, hrole ▸ hroles⟩

theorem accepted_cases (h : e.arrivals place = log ++ a :: log') (haccept : a.IsAccepted)
    (hfirst : e.first? place a.encounter.id = some first) :
    a.recurrence? ≠ some .listing ∧
        (first.origin = a.encounter.origin ∨ first.isSamePoint a.encounter = true) ∨
      a.recurrence? = some .listing ∧ first.isListing a.encounter = true := by
  obtain ⟨hid, hreasons⟩ := haccept
  rcases Walk.recurrence?_of_first h hid hfirst with ⟨hnone, rfl⟩ | hsome
  · exact .inl ⟨by simp [hnone], .inl rfl⟩
  have htells := a.survey.tells_recurrence first a.encounter
  cases hr : a.survey.recurrence first a.encounter <;> rw [hr] at htells hsome
  case sameElement => exact .inl ⟨by simp [hsome], .inl htells⟩
  case samePoint => exact .inl ⟨by simp [hsome], .inr htells⟩
  case listing => exact .inr ⟨hsome, htells.1⟩
  case refusedListing v => simp [hsome] at hreasons
  case duplicate => simp [hsome] at hreasons

/-- An instance that was accepted is reported when it is come to again if and only if it was
accepted as a listing, and it does not happen to pass for the listing of a refused state. The region
that it belongs to has no ID then. -/
theorem return_reported_iff (he : e.Coherent) (h : e.arrivals place = log ++ b :: log')
    (ha : a ∈ log) (horigin : b.encounter.origin = a.encounter.origin) (haccept : a.IsAccepted) :
    ((∃ d ∈ e.integrityDefects options place,
          d.cause.isDuplicate = true ∧ d.place = b.encounter.place) ↔
        a.recurrence? = some .listing ∧
          ∀ v, b.encounter.element = .vertex v → (b.encounter.owner, v) ∉ b.survey.refused) ∧
      (a.recurrence? = some .listing → a.encounter.owner = none) := by
  have hamem : a ∈ e.arrivals place := h ▸ List.mem_append_left _ ha
  have hbmem : b ∈ e.arrivals place := h ▸ by simp
  have hamet : a.encounter ∈ e.encounters place := List.mem_map_of_mem hamem
  have hbmet : b.encounter ∈ e.encounters place := List.mem_map_of_mem hbmem
  have helement := Encounter.element_eq_of_origin_eq he (encounters_subset_tree hbmet)
    (encounters_subset_tree hamet) horigin
  have hsame : b.encounter.id = a.encounter.id := congrArg Element.id helement
  obtain ⟨first, hfmet, hfirst, -⟩ := exists_first hamet haccept.1
  obtain ⟨log₁, log₂, hlog⟩ := List.append_of_mem hamem
  have hb := Walk.recurrence?_of_later h ha haccept.1 hsame (hsame ▸ hfirst)
  rw [reported_at_iff hbmem, hb, Option.some.injEq, Survey.recurrence_eq_duplicate]
  rcases accepted_cases hlog haccept hfirst with ⟨hne, hpasses⟩ | ⟨hr, hlisting⟩
  · -- the reason holds again
    refine ⟨iff_of_false ?_ fun h => hne h.1, fun h => absurd h hne⟩
    rintro ⟨hforigin, hfpoint, -⟩
    rcases hpasses with h | h
    · exact hforigin (h.trans horigin.symm)
    · rw [isSamePoint_of_returned he hamet hbmet horigin h] at hfpoint
      cases hfpoint
  · have hpair := (Encounter.isListing_iff.1 hlisting).1
    have hfelement : first.element ≠ b.encounter.element := by
      rw [helement]
      exact fun heq => Encounter.not_isListing_of_element_eq heq hlisting
    have hforigin : first.origin ≠ b.encounter.origin := fun heq => hfelement
      (Encounter.element_eq_of_origin_eq he (encounters_subset_tree hfmet)
        (encounters_subset_tree hbmet) heq)
    have hfpoint : first.isSamePoint b.encounter = false :=
      Bool.eq_false_iff.2 fun h => hfelement (Encounter.element_eq_of_isSamePoint h)
    have hlisted : b.encounter.id ∈ b.survey.listed :=
      (Walk.mem_listed_of_arrival h).2 ⟨a, ha, hsame.symm, hr⟩
    have hdef := Element.definition?_eq_none (Element.type_ne_of_isListingPair hpair).2
    refine ⟨?_, fun _ => owner_of_returned he h ha horigin hdef⟩
    simp only [hr, ne_eq, hforigin, not_false_eq_true, hfpoint, hlisted, implies_true, true_and]

/-- A machine without an ID. Its region has none either, and lists its state. -/
def lodge (shared : Option Nat) : StateMachine where
  id := ""
  regions := [{
    id := ""
    states := [{ id := "s", type := .state }]
    vertices := [.vertex { id := "s", type := .state }] }]
  shared := shared

def lodger (id : String) (m : StateMachine) : State where
  id := id
  type := .state
  isSubmachineState := true
  submachine := some m

def lodgers (m : StateMachine) : Element :=
  .region { id := "r", states := [lodger "a" m, lodger "b" m] }

def lodging : Element := lodgers (lodge (some 0))

theorem coherent_lodging : lodging.Coherent := by
  have hlink : (lodgers { id := "@0" }).link (Sharing.define [lodge none]) = lodging := by cbv
  rw [← hlink]
  apply coherent_link
  · intro m hm
    obtain rfl := List.mem_singleton.1 hm
    exact unshared_of_tree (by cbv)
  · exact unshared_of_tree (by cbv)

theorem exists_log {l : List Arrival} {i j : ℕ} (hij : i < j) (ha : l[i]? = some a)
    (hb : l[j]? = some b) : ∃ log log', l = log ++ b :: log' ∧ a ∈ log := by
  obtain ⟨hj, rfl⟩ := List.getElem?_eq_some_iff.1 hb
  refine ⟨l.take j, l.drop (j + 1), ?_, ?_⟩
  · rw [← List.drop_eq_getElem_cons hj, List.take_append_drop]
  · exact List.mem_of_getElem? ((List.getElem?_take_of_lt hij).trans ha)

/-- The origin of a member of the region. -/
def lodgingMember (field : String) : Origin where
  definition := some 0
  steps := [.item "Regions" 0, .item field 0]

/-- The state of the machine is let pass when it is come to through the second lodger. -/
theorem lodging_state_unreported :
    ∃ a b, (lodging.arrivals [])[4]? = some a ∧ (lodging.arrivals [])[9]? = some b ∧
      b.encounter.origin = a.encounter.origin ∧ a.IsAccepted ∧
      ¬ ∃ d ∈ lodging.integrityDefects {} [],
        d.cause.isDuplicate = true ∧ d.place = b.encounter.place := by
  obtain ⟨a, ha, haid, hao, har⟩ : ∃ a, (lodging.arrivals [])[4]? = some a ∧
      a.encounter.element.HasId ∧ a.encounter.origin = lodgingMember "States" ∧
      a.recurrence? = none := ⟨_, by cbv, by decide, rfl, by cbv⟩
  obtain ⟨b, hb, hbo⟩ : ∃ b, (lodging.arrivals [])[9]? = some b ∧
      b.encounter.origin = lodgingMember "States" := ⟨_, by cbv, rfl⟩
  have horigin := hbo.trans hao.symm
  have haccept : a.IsAccepted := ⟨haid, by simp [har]⟩
  obtain ⟨log, log', hlog, hmem⟩ := exists_log (by decide) ha hb
  refine ⟨a, b, ha, hb, horigin, haccept, fun hreported => ?_⟩
  have hiff := (return_reported_iff coherent_lodging hlog hmem horigin haccept).1.1 hreported
  simp [har] at hiff

/-- The vertex that lists the state is reported when it is come to through the second lodger. -/
theorem lodging_vertex_reported :
    ∃ a b log log', lodging.arrivals [] = log ++ b :: log' ∧ a ∈ log ∧
      b.encounter.origin = a.encounter.origin ∧ a.IsAccepted ∧
      ∃ d ∈ lodging.integrityDefects {} [],
        d.cause.isDuplicate = true ∧ d.place = b.encounter.place := by
  obtain ⟨a, ha, haid, hao, har⟩ : ∃ a, (lodging.arrivals [])[5]? = some a ∧
      a.encounter.element.HasId ∧ a.encounter.origin = lodgingMember "Vertices" ∧
      a.recurrence? = some .listing := ⟨_, by cbv, by decide, rfl, by cbv⟩
  obtain ⟨b, hb, hbo, hbr⟩ : ∃ b, (lodging.arrivals [])[10]? = some b ∧
      b.encounter.origin = lodgingMember "Vertices" ∧ b.recurrence? = some .duplicate :=
    ⟨_, by cbv, rfl, by cbv⟩
  obtain ⟨log, log', hlog, hmem⟩ := exists_log (by decide) ha hb
  exact ⟨a, b, log, log', hlog, hmem, hbo.trans hao.symm, ⟨haid, by simp [har]⟩,
    (reported_at_iff (List.mem_of_getElem? hb)).2 hbr⟩

end Element

end Statechart
