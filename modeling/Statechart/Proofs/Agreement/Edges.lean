import Statechart.Proofs.Agreement.Ends
import Statechart.Proofs.Location.Rules

/-! What the rules say of transitions. A transition is examined within its region only, so a breach
on a transition comes from the rules for that transition and that region, and whether there is one
can be read off the two. -/

namespace Statechart

open Breaches (AreAt areAt_flatMap areAt_breachIf)

/-- Whether a breach is one of those for a transition of a region that can be met. -/
def Encounter.HasEdgeBreach (x : Encounter) (b : Located Breach) : Prop :=
  ∃ z ∈ x.tree, ∃ r, z.element = .region r ∧ ∃ i t, r.transitions[i]? = some t ∧
    ∃ c : Context, c.place = z.place ++ [.item "Transitions" i] ∧
      b ∈ t.breaches c ++ t.scopeBreaches c r

/-- Breaches on transitions come from the rules for transitions. -/
def Breaches.FromEdges (l : Breaches) (x : Encounter) : Prop :=
  ∀ b ∈ l, b.type = .transition → x.HasEdgeBreach b

/-- What the rules say of transitions at or below an element comes from the rules for these
transitions. -/
def Element.FromEdges (e : Element) : Prop :=
  ∀ (c : Context) (x : Encounter), x.element = e → x.place = c.place → (e.breaches c).FromEdges x

/-- The same of the parts of an element, but for transitions. -/
def Element.PartsFromEdges (e : Element) : Prop :=
  ∀ p ∈ e.parts, p.element.type ≠ .transition → p.element.FromEdges

namespace Breaches

variable {c : Context} {x : Encounter} {type : EntityType} {l l' : Breaches}

theorem fromEdges_append : FromEdges (l ++ l') x ↔ FromEdges l x ∧ FromEdges l' x :=
  List.forall_mem_append

theorem fromEdges_of_areAt (h : AreAt l c type) (htype : type ≠ .transition := by decide) :
    FromEdges l x :=
  fun b hb hb' => absurd ((h b hb).2.symm.trans hb') htype

theorem fromEdges_flatMap {α : Type} {items : List α} {f : α → Breaches}
    (h : ∀ a ∈ items, FromEdges (f a) x) : FromEdges (items.flatMap f) x := by
  intro b hb
  obtain ⟨a, ha, hb⟩ := List.mem_flatMap.1 hb
  exact h a ha b hb

theorem fromEdges_part {p : Part} (hp : p ∈ x.element.parts) (h : FromEdges l (x.part p)) :
    FromEdges l x := by
  intro b hb htype
  obtain ⟨z, hz, hcauses⟩ := h b hb htype
  have hsub := Encounter.tree_sublist (Encounter.part_mem_tree (Encounter.self_mem_tree x) hp)
  exact ⟨z, hsub.subset hz, hcauses⟩

/-- The rules for a member of a list are those for a part. -/
theorem fromEdges_member {α : Type} {role : Role} {field : String} {element : α → Element}
    {items : List α} (ih : x.element.PartsFromEdges) (hplace : x.place = c.place)
    (hparts : ∀ p ∈ Part.ofList role field element items, p ∈ x.element.parts)
    (htype : ∀ a, (element a).type ≠ .transition) {a : α × ℕ} (ha : a ∈ items.zipIdx) :
    FromEdges ((element a.1).breaches (c.item field a.2)) x := by
  obtain ⟨a, i⟩ := a
  have hp := hparts ⟨role, .item field i, element a⟩ (List.mem_map.2 ⟨(a, i), ha, rfl⟩)
  refine fromEdges_part hp (ih _ hp (htype a) _ _ rfl ?_)
  rw [Context.item, ← hplace]
  rfl

end Breaches

open Breaches (fromEdges_append fromEdges_of_areAt fromEdges_flatMap fromEdges_member)

namespace Element

variable {x : Encounter} {c : Context}

/-- Vertices, points and what names them have nothing to do with transitions. -/
theorem fromEdges_vertexBreaches (v : RegionVertex) : (v.breaches c).FromEdges x := by
  have htype : v.element.type ≠ .transition := by
    cases v <;> simp [RegionVertex.element, Element.type]
  exact fromEdges_of_areAt (RegionVertex.areAt_breaches c v) htype

theorem fromEdges_connectionPointReference (r : ConnectionPointReference) :
    (r.breaches c).FromEdges x := by
  have hown : AreAt (r.shapeBreaches c .connectionPointReference
      ++ c.breachIf (r.entry = [] ∧ r.exit = []) .connectionPointReference (.noPoints r.id)) c
      .connectionPointReference := by
    simp [Vertex.areAt_shapeBreaches]
  refine fromEdges_append.2 ⟨fromEdges_of_areAt hown, fromEdges_flatMap fun side _ => ?_⟩
  exact fromEdges_flatMap fun q _ =>
    fromEdges_of_areAt (Pseudostate.areAt_pointBreaches _ side q.1)

theorem fromEdges_listBreaches {regions : List Region} (ih : x.element.PartsFromEdges)
    (hplace : x.place = c.place)
    (hparts : ∀ p ∈ Part.ofList .member "Regions" region regions, p ∈ x.element.parts) :
    (Region.listBreaches c regions 0).FromEdges x := by
  rw [Region.listBreaches_eq_flatMap]
  exact fromEdges_flatMap fun _ hr => fromEdges_member ih hplace hparts (fun _ h => by cases h) hr

theorem fromEdges_stateMachine {m : StateMachine} (ih : (stateMachine m).PartsFromEdges) :
    (stateMachine m).FromEdges := by
  intro c x hx hplace
  rw [← hx] at ih
  have hpoints : (m.pointBreaches (c.enterMachine m)).FromEdges x := by
    refine fromEdges_flatMap fun q _ => fromEdges_append.2 ⟨?_, ?_⟩
    · exact fromEdges_of_areAt (areAt_breachIf _ _)
    · exact fromEdges_of_areAt (Pseudostate.areAt_breaches _ q.1)
  have hregions : (Region.listBreaches (c.enterMachine m) m.regions 0).FromEdges x :=
    fromEdges_listBreaches ih hplace fun p hp => hx ▸ mem_parts_stateMachine.2 (.inl hp)
  have hown : AreAt ((c.enterMachine m).require .stateMachine "ID" m.id
      ++ (c.enterMachine m).breachIf (m.regions.length = 0) .stateMachine .noRegions
      ++ (c.enterMachine m).breachIf (m.isMethod ∧ m.connectionPoints ≠ []) .stateMachine
        (.methodWithPoints m.id m.connectionPoints.length)) (c.enterMachine m) .stateMachine := by
    simp
  exact fromEdges_append.2
    ⟨fromEdges_append.2 ⟨fromEdges_of_areAt hown, hpoints⟩, hregions⟩

theorem fromEdges_region {r : Region} (ih : (region r).PartsFromEdges) :
    (region r).FromEdges := by
  intro c x hx hplace
  rw [← hx] at ih
  have hvertices : (r.vertexBreaches (c.enterRegion r)).FromEdges x :=
    fromEdges_flatMap fun v _ => fromEdges_vertexBreaches v.1
  have hstates : (Region.stateBreaches (c.enterRegion r) r r.states 0).FromEdges x := by
    rw [Region.stateBreaches_eq_flatMap]
    refine fromEdges_flatMap fun s hs => fromEdges_append.2 ⟨?_, ?_⟩
    · exact fromEdges_of_areAt (Region.areAt_listingBreaches _ r s.1)
    · exact fromEdges_member (c := c.enterRegion r) ih hplace
        (fun p hp => hx ▸ mem_parts_region.2 (.inl hp)) (fun _ h => by cases h) hs
  have htransitions : (r.transitionBreaches (c.enterRegion r)).FromEdges x := by
    intro b hb _
    obtain ⟨⟨t, i⟩, ht, hb⟩ := List.mem_flatMap.1 hb
    refine ⟨x, Encounter.self_mem_tree x, r, hx, i, t, List.mk_mem_zipIdx_iff_getElem?.1 ht,
      (c.enterRegion r).item "Transitions" i, ?_, hb⟩
    rw [hplace]
    rfl
  have hid : ((c.enterRegion r).require .region "ID" r.id).FromEdges x :=
    fromEdges_of_areAt (Breaches.areAt_require _ _)
  have hmultiplicity : (r.multiplicityBreaches (c.enterRegion r)).FromEdges x :=
    fromEdges_of_areAt (Region.areAt_multiplicityBreaches (c.enterRegion r) r)
  have hinitial : (r.initialBreaches (c.enterRegion r)).FromEdges x :=
    fromEdges_of_areAt (Region.areAt_initialBreaches (c.enterRegion r) r)
  rw [show (region r).breaches c = r.breaches c from rfl, Region.breaches_eq]
  simp only [fromEdges_append]
  exact ⟨⟨⟨⟨⟨hid, hvertices⟩, hmultiplicity⟩, hstates⟩, htransitions⟩, hinitial⟩

theorem fromEdges_state {s : State} (ih : (state s).PartsFromEdges) : (state s).FromEdges := by
  intro c x hx hplace
  rw [← hx] at ih
  have hactions : (s.actionBreaches c).FromEdges x := by
    have haction (name : String) (slot : Option Behavior) :
        Breaches.FromEdges (slot.toList.flatMap (·.breaches (c.field name))) x :=
      fromEdges_flatMap fun b _ => fromEdges_of_areAt (Behavior.areAt_breaches _ b)
    exact fromEdges_append.2 ⟨fromEdges_append.2 ⟨haction _ _, haction _ _⟩, haction _ _⟩
  have hregions : (Region.listBreaches c s.regions 0).FromEdges x :=
    fromEdges_listBreaches ih hplace fun p hp => hx ▸ mem_parts_state.2 (.inl hp)
  have hpoints : (s.connectionBreaches c).FromEdges x := by
    unfold State.connectionBreaches
    split
    · exact fromEdges_flatMap fun r _ => fromEdges_flatMap fun side _ =>
        fromEdges_of_areAt (State.areAt_undeclaredPoints _ _ r.1 side)
    · exact List.forall_mem_nil _
  rw [show (state s).breaches c = s.breaches c from rfl, State.breaches_eq]
  simp only [fromEdges_append]
  exact ⟨⟨⟨⟨⟨⟨⟨fromEdges_of_areAt (Vertex.areAt_shapeBreaches c .state s.toVertex),
    fromEdges_of_areAt (Vertex.areAt_tagBreaches c .state .state s.toVertex)⟩,
    fromEdges_of_areAt (State.areAt_compositionBreaches c s)⟩,
    fromEdges_of_areAt (State.areAt_submachineBreaches c s)⟩, hactions⟩, hregions⟩,
    fromEdges_flatMap fun r _ => fromEdges_connectionPointReference r.1⟩, hpoints⟩

/-- The rules for an element, a transition by itself apart. -/
theorem fromEdges (e : Element) (h : e.type ≠ .transition) : e.FromEdges := by
  induction hn : sizeOf e using Nat.strongRecOn generalizing e with
  | ind n ih =>
    have hparts : e.PartsFromEdges :=
      fun p hp htype => ih _ (hn ▸ sizeOf_of_mem_parts hp) p.element htype rfl
    cases e with
    | stateMachine m => exact fromEdges_stateMachine hparts
    | region r => exact fromEdges_region hparts
    | vertex v => exact fun c x _ _ => fromEdges_vertexBreaches (.vertex v)
    | state s => exact fromEdges_state hparts
    | pseudostate p => exact fun c x _ _ => fromEdges_vertexBreaches (.pseudostate p)
    | finalState f => exact fun c x _ _ => fromEdges_vertexBreaches (.finalState f)
    | transition t => exact absurd rfl h
    | connectionPointReference r => exact fun c x _ _ => fromEdges_connectionPointReference r

end Element

namespace Transition

/-- What the rules hold against a transition of a region. -/
inductive Flaw (r : Region) (t : Transition) : Prop where
  | blankId (hid : Text.isBlank t.id = true)
  | noEnd (side : TransitionEnd) (hend : t.atEnd side = none)
  | unknownKind (hkind : t.kind.isKnown = false)
  | internal {u v : Vertex} (hu : t.atEnd .source = some u) (hv : t.atEnd .target = some v)
    (hkind : t.kind = .internal) (hne : u.id ≠ v.id)
  | outside {side : TransitionEnd} {v : Vertex} (hv : t.atEnd side = some v)
    (hid : Text.isBlank v.id = false) (hmember : r.hasMember v.id = false)
  | final {u : Vertex} (hu : t.atEnd .source = some u) (hfinal : isFinal r u = true)
  | localSource {u : Vertex} (hu : t.atEnd .source = some u) (hkind : t.kind = .local)
    (hsimple : (r.state? u.id).any (!·.isComposite) = true)

variable {c : Context} {r : Region} {t : Transition} {b : Located Breach}

theorem flaw_of_mem_breaches (hb : b ∈ t.breaches c) (htype : b.type = .transition) :
    t.Flaw r ∧ b.place = c.place := by
  -- conditions, actions and triggers are examined by themselves
  have other {l : Breaches} {type : EntityType} {c' : Context} (h : AreAt l c' type)
      (hb : b ∈ l) (hne : type ≠ .transition) : t.Flaw r ∧ b.place = c.place :=
    absurd ((h b hb).2.symm.trans htype) hne
  simp only [breaches, List.mem_append] at hb
  rcases hb with (((((hb | hb) | hb) | hb) | hb) | hb) | hb
  · obtain ⟨hid, rfl⟩ := Context.mem_breachIf.1 hb
    exact ⟨.blankId hid, rfl⟩
  · obtain ⟨side, -, hb⟩ := List.mem_flatMap.1 hb
    obtain ⟨hend, rfl⟩ := Context.mem_breachIf.1 hb
    exact ⟨.noEnd side (by simpa using hend), rfl⟩
  · obtain ⟨hkind, rfl⟩ := Context.mem_breachIf.1 hb
    exact ⟨.unknownKind hkind, rfl⟩
  · unfold internalBreaches at hb
    split at hb
    · next source target hsource htarget =>
      obtain ⟨u, hu, rfl⟩ := Option.map_eq_some_iff.1 hsource
      obtain ⟨v, hv, rfl⟩ := Option.map_eq_some_iff.1 htarget
      obtain ⟨⟨hkind, hne⟩, rfl⟩ := Context.mem_breachIf.1 hb
      exact ⟨.internal hu hv hkind hne, rfl⟩
    · cases hb
  · obtain ⟨g, -, hb⟩ := List.mem_flatMap.1 hb
    exact other (Constraint.areAt_breaches _ g) hb (by decide)
  · obtain ⟨f, -, hb⟩ := List.mem_flatMap.1 hb
    exact other (Behavior.areAt_breaches _ f) hb (by decide)
  · obtain ⟨x, -, hb⟩ := List.mem_flatMap.1 hb
    exact other (Trigger.areAt_breaches _ x.1) hb (by decide)

theorem flaw_of_mem_scopeBreaches (hb : b ∈ t.scopeBreaches c r) : t.Flaw r := by
  rcases List.mem_append.1 hb with hb | hb
  · obtain ⟨side, -, hb⟩ := List.mem_flatMap.1 hb
    unfold endBreaches at hb
    split at hb
    · cases hb
    · next v hv =>
      obtain ⟨⟨hid, hmember⟩, -⟩ := Context.mem_breachIf.1 hb
      exact .outside hv (by simpa using hid) (by simpa using hmember)
  · unfold sourceBreaches at hb
    split at hb
    · cases hb
    · next u hu =>
      rcases List.mem_append.1 hb with hb | hb
      · exact .final hu (Context.mem_breachIf.1 hb).1
      · obtain ⟨⟨hkind, hsimple⟩, -⟩ := Context.mem_breachIf.1 hb
        exact .localSource hu hkind hsimple

/-- What the rules report on a transition is one of its flaws. -/
theorem flaw_of_breach (hb : b ∈ t.breaches c ++ t.scopeBreaches c r)
    (htype : b.type = .transition) : t.Flaw r ∧ b.place = c.place := by
  rcases List.mem_append.1 hb with hb | hb
  · exact flaw_of_mem_breaches hb htype
  · exact ⟨flaw_of_mem_scopeBreaches hb, (areAt_scopeBreaches c r t b hb).1⟩

/-- The rules report every flaw. -/
theorem Flaw.exists_breach (h : t.Flaw r) (c : Context) :
    ∃ cause, ⟨.transition, c.place, cause⟩ ∈ t.breaches c ++ t.scopeBreaches c r := by
  have all (side : TransitionEnd) : side ∈ TransitionEnd.all := by cases side <;> decide
  cases h with
  | blankId hid =>
    refine ⟨.blank "ID", List.mem_append_left _ ?_⟩
    simp [breaches, Context.require, Context.mem_breachIf, hid]
  | noEnd side hend =>
    refine ⟨.noEnd side t.id, List.mem_append_left _ ?_⟩
    simp [breaches, Context.mem_breachIf, hend, all]
  | unknownKind hkind =>
    refine ⟨.unknownTransitionKind t.kind.text, List.mem_append_left _ ?_⟩
    simp [breaches, Context.mem_breachIf, hkind]
  | @internal u v hu hv hkind hne =>
    have hsource : t.sourceId? = some u.id := congrArg (Option.map Vertex.id) hu
    have htarget : t.targetId? = some v.id := congrArg (Option.map Vertex.id) hv
    refine ⟨.internalBetween t.id u.id v.id, List.mem_append_left _ ?_⟩
    simp [breaches, internalBreaches, Context.mem_breachIf, hsource, htarget, hkind, hne]
  | @outside side v hv hid hmember =>
    refine ⟨.endOutsideRegion side v.id r.id, List.mem_append_right _ (List.mem_append_left _ ?_)⟩
    refine List.mem_flatMap.2 ⟨side, all side, ?_⟩
    simp [endBreaches, hv, Context.mem_breachIf, hid, hmember]
  | @final u hu hfinal =>
    refine ⟨.finalSource u.id t.id, List.mem_append_right _ (List.mem_append_right _ ?_)⟩
    rw [sourceBreaches, show t.source = some u from hu]
    exact List.mem_append_left _ (Context.mem_breachIf.2 ⟨hfinal, rfl⟩)
  | @localSource u hu hkind hsimple =>
    refine ⟨.localFromSimple t.id u.id, List.mem_append_right _ (List.mem_append_right _ ?_)⟩
    rw [sourceBreaches, show t.source = some u from hu]
    exact List.mem_append_right _ (Context.mem_breachIf.2 ⟨⟨hkind, hsimple⟩, rfl⟩)

end Transition

namespace StateMachine

variable {m : StateMachine} {options : Options} {z : Encounter} {r : Region} {i : ℕ}
  {t : Transition}

/-- Of a transition of a machine the rules report flaws only. -/
theorem flaw_of_mem_breaches (hz : z ∈ m.tree) (hr : z.element = .region r)
    (ht : r.transitions[i]? = some t) {b : Located Breach} (hb : b ∈ m.breaches { options })
    (htype : b.type = .transition) (hplace : b.place = z.place ++ [.item "Transitions" i]) :
    t.Flaw r := by
  obtain ⟨z', hz', r', hr', j, t', ht', c, hc, hbt⟩ :=
    Element.fromEdges (.stateMachine m) (by simp [Element.type]) { options }
      (.ofRoot (.stateMachine m) []) rfl rfl b hb htype
  obtain ⟨hflaw, hbc⟩ := Transition.flaw_of_breach hbt htype
  -- the place tells which region and which of its transitions it is
  obtain ⟨hzplace, hstep⟩ := List.append_inj' (hplace.symm.trans (hbc.trans hc)) rfl
  obtain rfl := Encounter.eq_of_place_eq hz hz' hzplace
  obtain rfl : i = j := by simpa [Segment.item] using hstep
  cases hr.symm.trans hr'
  cases ht.symm.trans ht'
  exact hflaw

/-- Of an own transition of a machine the rules report all flaws. -/
theorem exists_breach_of_flaw (hz : z ∈ m.tree) (hown : z.place.IsOwn) (hr : z.element = .region r)
    (ht : r.transitions[i]? = some t) (hflaw : t.Flaw r) :
    ∃ b ∈ m.breaches { options }, b.place = z.place ++ [.item "Transitions" i] := by
  obtain ⟨c, hc, hsubset⟩ := exists_own_breaches options z hz hown
    (.inr (.inl (by rw [Encounter.type, hr]; rfl)))
  obtain ⟨c', hc', hsubset'⟩ := Region.exists_edge_breaches_subset ht c
  obtain ⟨cause, hb⟩ := hflaw.exists_breach c'
  rw [hr] at hsubset
  exact ⟨_, hsubset (hsubset' hb), by rw [hc', hc]⟩

end StateMachine

end Statechart
