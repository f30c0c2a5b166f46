import Statechart.Proofs.Agreement.Gap

/-! The rules go through a machine in an order of their own: they come to connection points before
regions and to vertices before states, and do not enter a machine that a state stands for. What they
report as missing are the gaps of the machine's own elements, each as often as it is there. -/

namespace Statechart

open Breaches (gaps gaps_append gaps_flatMap gaps_require NoGap noGap_breachIf)

/-- The context is about an own element, met at the place of the context. -/
structure Encounter.Examined (x : Encounter) (e : Element) (c : Context) : Prop where
  element : x.element = e
  place : x.place = c.place
  own : x.place.IsOwn

/-- What the rules report as missing is what is missing on the own elements. -/
def Element.ReportsGaps (e : Element) : Prop :=
  ∀ (c : Context) (x : Encounter), x.Examined e c → (gaps (e.breaches c)).Perm x.ownGaps

/-- The rules for each part report its gaps. -/
def Element.PartsReportGaps (e : Element) : Prop := ∀ p ∈ e.parts, p.element.ReportsGaps

namespace Encounter.Examined

variable {x : Encounter} {e : Element} {c : Context}

theorem item (h : x.Examined e c) {role : Role} {field : String} {i : ℕ} {f : Element}
    (hp : ⟨role, .item field i, f⟩ ∈ e.parts) (htype : f.type ≠ .stateMachine) :
    (x.part ⟨role, .item field i, f⟩).Examined f (c.item field i) := by
  obtain ⟨rfl, hplace, hown⟩ := h
  refine ⟨rfl, ?_, (isOwn_part hp).2 ⟨hown, htype⟩⟩
  rw [Context.item, ← hplace]
  rfl

/-- The rules for the members of a list report what is missing there, if they report for a member
what the rules for the member by itself do. -/
theorem gaps_members (h : x.Examined e c) (ih : e.PartsReportGaps) {α : Type} {role : Role}
    {field : String} {element : α → Element} {items : List α} {f : α × ℕ → Breaches}
    (hparts : ∀ p ∈ Part.ofList role field element items, p ∈ e.parts)
    (htype : ∀ a, (element a).type ≠ .stateMachine)
    (hf : ∀ a i, Breaches.gaps (f (a, i)) =
      Breaches.gaps ((element a).breaches (c.item field i))) :
    (Breaches.gaps (items.zipIdx.flatMap f)).Perm
      ((Part.ofList role field element items).flatMap fun p => (x.part p).ownGaps) := by
  rw [gaps_flatMap, Part.ofList, List.flatMap_map]
  refine List.Perm.flatMap_left _ ?_
  rintro ⟨a, i⟩ ha
  have hp := hparts ⟨role, .item field i, element a⟩ (List.mem_map.2 ⟨(a, i), ha, rfl⟩)
  rw [hf]
  exact ih _ hp _ _ (h.item hp (htype a))

theorem idGaps_eq (h : x.Examined e c) :
    x.idGaps = if Text.isBlank e.id then [⟨e.type, c.place, .id⟩] else [] := by
  rw [idGaps, type, h.element, h.place]

theorem ownGaps_eq (h : x.Examined e c) :
    x.ownGaps = (if Text.isBlank e.id then [⟨e.type, c.place, .id⟩] else []) ++ x.slotGaps ++
      e.parts.flatMap fun p => (x.part p).ownGaps := by
  rw [Encounter.ownGaps_eq h.own, gaps, h.idGaps_eq, h.element]

/-- An element without slots lacks an ID at most, apart from what its parts lack. -/
theorem ownGaps_of_slotless (h : x.Examined e c) (hstate : e.type ≠ .state)
    (htransition : e.type ≠ .transition) :
    x.ownGaps = (if Text.isBlank e.id then [⟨e.type, c.place, .id⟩] else []) ++
      e.parts.flatMap fun p => (x.part p).ownGaps := by
  have htype : x.type = e.type := by rw [type, h.element]
  rw [h.ownGaps_eq, slotGaps_eq_nil (htype ▸ hstate) (htype ▸ htransition), List.append_nil]

end Encounter.Examined

/-- An entry among the vertices of a region has no slots and is no machine. -/
theorem RegionVertex.type_ne (v : RegionVertex) :
    v.element.type ≠ .state ∧ v.element.type ≠ .transition ∧ v.element.type ≠ .stateMachine := by
  cases v <;> simp [element, Element.type]

theorem RegionVertex.reportsGaps (v : RegionVertex) : v.element.ReportsGaps := by
  intro c x h
  have hgaps : gaps (v.element.breaches c) =
      if Text.isBlank v.id then [⟨v.element.type, c.place, .id⟩] else [] := by
    rw [← gaps_breaches]
    cases v <;> rfl
  rw [hgaps, h.ownGaps_of_slotless v.type_ne.1 v.type_ne.2.1]
  cases v <;> exact .of_eq (List.append_nil _).symm

theorem Transition.reportsGaps (t : Transition) : (Element.transition t).ReportsGaps := by
  intro c x h
  rw [h.ownGaps_eq, Encounter.slotGaps_transition h.element, h.place, Element.parts,
    List.flatMap_nil, List.append_nil,
    show (Element.transition t).breaches c = t.breaches c from rfl, gaps_breaches]
  exact .refl _

theorem ConnectionPointReference.reportsGaps (r : ConnectionPointReference)
    (ih : (Element.connectionPointReference r).PartsReportGaps) :
    (Element.connectionPointReference r).ReportsGaps := by
  intro c x h
  have hpoint (side : PointSide) (p : Pseudostate) (i : ℕ) :
      gaps (p.pointBreaches (c.item side.field i) side) =
        gaps ((Element.pseudostate p).breaches (c.item side.field i)) := by
    rw [Pseudostate.gaps_pointBreaches]
    exact (Pseudostate.gaps_breaches _ p).symm
  have hentry : (gaps (r.entry.zipIdx.flatMap fun p =>
      p.1.pointBreaches (c.item "Entry" p.2) .entry)).Perm
      ((Part.ofList .referencePoint "Entry" Element.pseudostate r.entry).flatMap fun p =>
        (x.part p).ownGaps) :=
    h.gaps_members ih (fun p hp => Element.mem_parts_connectionPointReference.2 (.inl hp))
      (by simp [Element.type]) (hpoint .entry)
  have hexit : (gaps (r.exit.zipIdx.flatMap fun p =>
      p.1.pointBreaches (c.item "Exit" p.2) .exit)).Perm
      ((Part.ofList .referencePoint "Exit" Element.pseudostate r.exit).flatMap fun p =>
        (x.part p).ownGaps) :=
    h.gaps_members ih (fun p hp => Element.mem_parts_connectionPointReference.2 (.inr hp))
      (by simp [Element.type]) (hpoint .exit)
  have hnone : NoGap (c.breachIf (r.entry = [] ∧ r.exit = []) .connectionPointReference
      (.noPoints r.id)) := noGap_breachIf.2 fun _ => rfl
  rw [h.ownGaps_of_slotless (by simp [Element.type]) (by simp [Element.type]),
    show (Element.connectionPointReference r).breaches c = r.breaches c from rfl, breaches,
    gaps_append, gaps_append, Vertex.gaps_shapeBreaches c rfl, hnone.gaps, List.append_nil,
    Element.parts, List.flatMap_append]
  simp only [PointSide.all, List.flatMap_cons, List.flatMap_nil, List.append_nil, gaps_append]
  exact (hentry.append hexit).append_left _

theorem StateMachine.reportsGaps (m : StateMachine)
    (ih : (Element.stateMachine m).PartsReportGaps) : (Element.stateMachine m).ReportsGaps := by
  intro c x h
  have hinside : x.Examined (.stateMachine m) (c.enterMachine m) := ⟨h.element, h.place, h.own⟩
  have hpoints : (gaps (m.pointBreaches (c.enterMachine m))).Perm
      ((Part.ofList .machinePoint "ConnectionPoints" Element.pseudostate
        m.connectionPoints).flatMap fun p => (x.part p).ownGaps) := by
    rw [pointBreaches]
    refine hinside.gaps_members ih (fun p hp => Element.mem_parts_stateMachine.2 (.inr hp))
      (by simp [Element.type]) ?_
    intro q i
    have hkind : NoGap (((c.enterMachine m).item "ConnectionPoints" i).breachIf
        (q.kind.isKnown ∧ ¬ q.kind.isConnectionPoint) .pseudostate
        (.notConnectionPoint q.id q.kind)) := noGap_breachIf.2 fun _ => rfl
    rw [gaps_append, hkind.gaps, List.nil_append]
    rfl
  have hregions : (gaps (Region.listBreaches (c.enterMachine m) m.regions 0)).Perm
      ((Part.ofList .member "Regions" Element.region m.regions).flatMap fun p =>
        (x.part p).ownGaps) := by
    rw [Region.listBreaches_eq_flatMap]
    exact hinside.gaps_members ih (fun p hp => Element.mem_parts_stateMachine.2 (.inl hp))
      (by simp [Element.type]) fun _ _ => rfl
  have hcount : NoGap ((c.enterMachine m).breachIf (m.regions.length = 0) .stateMachine .noRegions)
      := noGap_breachIf.2 fun _ => rfl
  have hmethod : NoGap ((c.enterMachine m).breachIf (m.isMethod ∧ m.connectionPoints ≠ [])
      .stateMachine (.methodWithPoints m.id m.connectionPoints.length)) :=
    noGap_breachIf.2 fun _ => rfl
  rw [h.ownGaps_of_slotless (by simp [Element.type]) (by simp [Element.type]),
    show (Element.stateMachine m).breaches c = m.breaches c from rfl, breaches]
  simp only [gaps_append, hcount.gaps, hmethod.gaps, List.append_nil, Element.parts,
    List.flatMap_append]
  rw [gaps_require rfl, List.append_assoc]
  -- the rules come to the connection points before the regions
  exact ((hpoints.append hregions).trans List.perm_append_comm).append_left _

theorem Region.reportsGaps (r : Region) (ih : (Element.region r).PartsReportGaps) :
    (Element.region r).ReportsGaps := by
  intro c x h
  have hinside : x.Examined (.region r) (c.enterRegion r) := ⟨h.element, h.place, h.own⟩
  have hvertices : (gaps (r.vertexBreaches (c.enterRegion r))).Perm
      ((Part.ofList .member "Vertices" RegionVertex.element r.vertices).flatMap fun p =>
        (x.part p).ownGaps) := by
    rw [vertexBreaches]
    refine hinside.gaps_members ih (fun p hp => Element.mem_parts_region.2 (.inr (.inl hp)))
      (fun v => v.type_ne.2.2) ?_
    intro v i
    cases v <;> rfl
  have hstates : (gaps (stateBreaches (c.enterRegion r) r r.states 0)).Perm
      ((Part.ofList .member "States" Element.state r.states).flatMap fun p =>
        (x.part p).ownGaps) := by
    rw [stateBreaches_eq_flatMap]
    refine hinside.gaps_members ih (fun p hp => Element.mem_parts_region.2 (.inl hp))
      (by simp [Element.type]) ?_
    intro s i
    have hlisting : NoGap (r.listingBreaches (c.enterRegion r) s) := noGap_breachIf.2 fun _ => rfl
    rw [gaps_append, hlisting.gaps, List.nil_append]
    rfl
  have htransitions : (gaps (r.transitionBreaches (c.enterRegion r))).Perm
      ((Part.ofList .member "Transitions" Element.transition r.transitions).flatMap fun p =>
        (x.part p).ownGaps) := by
    rw [transitionBreaches]
    refine hinside.gaps_members ih (fun p hp => Element.mem_parts_region.2 (.inr (.inr hp)))
      (by simp [Element.type]) ?_
    intro t i
    rw [gaps_append, (t.noGap_scopeBreaches _ r).gaps, List.append_nil]
    rfl
  rw [h.ownGaps_of_slotless (by simp [Element.type]) (by simp [Element.type]),
    show (Element.region r).breaches c = r.breaches c from rfl, breaches_eq]
  simp only [gaps_append, (r.noGap_multiplicityBreaches _).gaps, (r.noGap_initialBreaches _).gaps,
    List.append_nil, Element.parts, List.flatMap_append]
  rw [gaps_require rfl, List.append_assoc, List.append_assoc, ← List.append_assoc (gaps _)]
  -- the rules come to the vertices before the states
  exact (((hvertices.append hstates).trans List.perm_append_comm).append htransitions).append_left _

theorem State.reportsGaps (s : State) (ih : (Element.state s).PartsReportGaps) :
    (Element.state s).ReportsGaps := by
  intro c x h
  have hregions : (gaps (Region.listBreaches c s.regions 0)).Perm
      ((Part.ofList .member "Regions" Element.region s.regions).flatMap fun p =>
        (x.part p).ownGaps) := by
    rw [Region.listBreaches_eq_flatMap]
    exact h.gaps_members ih (fun p hp => Element.mem_parts_state.2 (.inl hp))
      (by simp [Element.type]) fun _ _ => rfl
  have hconnections : (gaps (s.connections.zipIdx.flatMap fun x =>
      x.1.breaches (c.item "Connections" x.2))).Perm
      ((Part.ofList .member "Connections" Element.connectionPointReference
        s.connections).flatMap fun p => (x.part p).ownGaps) :=
    h.gaps_members ih (fun p hp => Element.mem_parts_state.2 (.inr (.inl hp)))
      (by simp [Element.type]) fun _ _ => rfl
  have hactions : gaps (s.actionBreaches c) = [] := by
    simp [actionBreaches, gaps_append, gaps_flatMap, Behavior.gaps_breaches]
  -- the machine that the state stands for is not its own
  have hmachine : (s.submachine.toList.map fun m =>
      (⟨.submachine, .field "Submachine", .stateMachine m⟩ : Part)).flatMap
        (fun p => (x.part p).ownGaps) = [] := by
    rw [List.flatMap_eq_nil_iff]
    intro p hp
    obtain ⟨m, -, rfl⟩ := List.mem_map.1 hp
    refine Encounter.ownGaps_of_not_own ?_
    simp [Encounter.part, Locator.isOwn_snoc]
  rw [h.ownGaps_eq, Encounter.slotGaps_state h.element, h.place,
    show (Element.state s).breaches c = s.breaches c from rfl, breaches_eq]
  simp only [gaps_append, (Vertex.noGap_tagBreaches c _ _ _).gaps,
    (s.noGap_compositionBreaches c).gaps, (s.noGap_connectionBreaches c).gaps, hactions,
    List.append_nil, Element.parts, List.flatMap_append, hmachine]
  rw [Vertex.gaps_shapeBreaches c rfl, gaps_submachineBreaches, List.append_assoc]
  exact (hregions.append hconnections).append_left _

/-- What the rules for an element report as missing is what is missing on its own elements. -/
theorem Element.reportsGaps (e : Element) : e.ReportsGaps := by
  induction hn : sizeOf e using Nat.strongRecOn generalizing e with
  | ind n ih =>
    have hparts : e.PartsReportGaps :=
      fun p hp => ih _ (hn ▸ sizeOf_of_mem_parts hp) p.element rfl
    cases e with
    | stateMachine m => exact m.reportsGaps hparts
    | region r => exact r.reportsGaps hparts
    | vertex v => exact RegionVertex.reportsGaps (.vertex v)
    | state s => exact s.reportsGaps hparts
    | pseudostate p => exact RegionVertex.reportsGaps (.pseudostate p)
    | finalState f => exact RegionVertex.reportsGaps (.finalState f)
    | transition t => exact t.reportsGaps
    | connectionPointReference r => exact r.reportsGaps hparts

end Statechart
