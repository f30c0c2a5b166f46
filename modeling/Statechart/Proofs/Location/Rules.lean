import Statechart.Proofs.Location.Navigation
import Statechart.Proofs.Wellformed.Clean

/-! The rules report a breach where it is: its locator leads from the element under examination to
something of the type that the breach names. The rules for an element by itself report at the
element; those for what it holds report below it. -/

namespace Statechart

/-- Whether a locator below the place of an entity leads to something of the type named. -/
def Entity.Locates {α : Type} (x : Entity) (place : Locator) (d : Located α) : Prop :=
  ∃ l y, x.Leads l y ∧ d.place = place ++ l ∧ y.type = d.type

/-- All breaches are on one element, which the context is about. -/
def Breaches.AreAt (l : Breaches) (c : Context) (type : EntityType) : Prop :=
  ∀ d ∈ l, d.place = c.place ∧ d.type = type

namespace Breaches

variable {c : Context} {type : EntityType} {l l' : Breaches}

@[simp] theorem areAt_nil : AreAt [] c type := List.forall_mem_nil _

@[simp] theorem areAt_append : AreAt (l ++ l') c type ↔ AreAt l c type ∧ AreAt l' c type :=
  List.forall_mem_append

@[simp] theorem areAt_breachIf (bad : Prop) [Decidable bad] (cause : Breach) :
    AreAt (c.breachIf bad type cause) c type := by
  unfold Context.breachIf
  split <;> simp [AreAt]

@[simp] theorem areAt_require (field value : String) :
    AreAt (c.require type field value) c type := areAt_breachIf _ _

theorem areAt_flatMap {α : Type} {items : List α} {f : α → Breaches}
    (h : ∀ a ∈ items, AreAt (f a) c type) : AreAt (items.flatMap f) c type := by
  intro d hd
  obtain ⟨a, ha, hd⟩ := List.mem_flatMap.1 hd
  exact h a ha d hd

end Breaches

open Breaches (AreAt areAt_flatMap areAt_breachIf)

section Own

variable (c : Context)

theorem Vertex.areAt_shapeBreaches (type : EntityType) (v : Vertex) :
    AreAt (v.shapeBreaches c type) c type := by
  simp [shapeBreaches]

theorem Vertex.areAt_tagBreaches (type : EntityType) (expected : VertexType) (v : Vertex) :
    AreAt (v.tagBreaches c type expected) c type := by
  simp [tagBreaches]

theorem Pseudostate.areAt_breaches (p : Pseudostate) : AreAt (p.breaches c) c .pseudostate := by
  have hkind : AreAt (p.kindBreaches c) c .pseudostate := by
    unfold kindBreaches
    split
    · cases c.region <;> simp
    · simp
  simp [breaches, Vertex.areAt_shapeBreaches, Vertex.areAt_tagBreaches, hkind]

theorem RegionVertex.areAt_breaches (v : RegionVertex) :
    AreAt (v.breaches c) c v.element.type := by
  cases v with
  | vertex v => exact Vertex.areAt_shapeBreaches c .vertex v
  | pseudostate p => exact Pseudostate.areAt_breaches c p
  | finalState f =>
    simp [breaches, element, Element.type, FinalState.breaches, Vertex.areAt_shapeBreaches,
      Vertex.areAt_tagBreaches]

/-- The rules for a point that a connection point reference names. -/
theorem Pseudostate.areAt_pointBreaches (side : PointSide) (p : Pseudostate) :
    AreAt (p.pointBreaches c side) c .pseudostate := by
  unfold pointBreaches
  split <;> simp

theorem Constraint.areAt_breaches (x : Constraint) : AreAt (x.breaches c) c .constraint := by
  simp [breaches]

theorem Behavior.areAt_breaches (x : Behavior) : AreAt (x.breaches c) c .behavior := by
  simp [breaches]

theorem Trigger.areAt_breaches (x : Trigger) : AreAt (x.breaches c) c .trigger := by
  simp [breaches]

theorem State.areAt_compositionBreaches (s : State) : AreAt (s.compositionBreaches c) c .state := by
  simp [compositionBreaches]

theorem State.areAt_submachineBreaches (s : State) : AreAt (s.submachineBreaches c) c .state := by
  unfold submachineBreaches standInBreaches plainBreaches
  split <;> cases s.submachine <;> simp

theorem State.areAt_undeclaredPoints (m : StateMachine) (x : ConnectionPointReference)
    (side : PointSide) : AreAt (undeclaredPoints c m x side) c .connectionPointReference :=
  areAt_flatMap fun _ _ => areAt_breachIf _ _

theorem Region.areAt_multiplicityBreaches (r : Region) :
    AreAt (r.multiplicityBreaches c) c .region := by
  unfold multiplicityBreaches
  split <;> simp

theorem Region.areAt_initialBreaches (r : Region) : AreAt (r.initialBreaches c) c .region := by
  refine areAt_flatMap ?_
  intro id _
  dsimp only
  split <;> simp

theorem Region.areAt_listingBreaches (r : Region) (s : State) :
    AreAt (r.listingBreaches c s) c .region := by
  simp [listingBreaches]

theorem Transition.areAt_internalBreaches (t : Transition) :
    AreAt (t.internalBreaches c) c .transition := by
  unfold internalBreaches
  split <;> simp

theorem Transition.areAt_scopeBreaches (r : Region) (t : Transition) :
    AreAt (t.scopeBreaches c r) c .transition := by
  have hends (side : TransitionEnd) : AreAt (t.endBreaches c r side) c .transition := by
    unfold endBreaches
    split <;> simp
  have hsource : AreAt (t.sourceBreaches c r) c .transition := by
    unfold sourceBreaches
    split <;> simp
  exact Breaches.areAt_append.2 ⟨areAt_flatMap fun side _ => hends side, hsource⟩

end Own

namespace Entity

/-- The breaches are of the entity at the place, or of what can be reached from it. -/
def LocatesAll (x : Entity) (place : Locator) (l : Breaches) : Prop := ∀ d ∈ l, x.Locates place d

variable {x y : Entity} {place : Locator} {c : Context} {l l' : Breaches} {e : Element}

theorem locatesAll_append :
    x.LocatesAll place (l ++ l') ↔ x.LocatesAll place l ∧ x.LocatesAll place l' :=
  List.forall_mem_append

theorem locatesAll_of_areAt (h : AreAt l c x.type) : x.LocatesAll c.place l := by
  intro d hd
  obtain ⟨hplace, htype⟩ := h d hd
  exact ⟨[], x, rfl, by rw [hplace, List.append_nil], htype.symm⟩

theorem locatesAll_child {s : Segment} (h : (s, y) ∈ x.children)
    (hl : y.LocatesAll (place ++ [s]) l) : x.LocatesAll place l := by
  intro d hd
  obtain ⟨way, z, hz, hplace, htype⟩ := hl d hd
  exact ⟨s :: way, z, leads_of_child h hz, by simp [hplace], htype⟩

theorem locatesAll_flatMap {α : Type} {items : List α} {f : α → Breaches}
    (h : ∀ a ∈ items, x.LocatesAll place (f a)) : x.LocatesAll place (items.flatMap f) := by
  intro d hd
  obtain ⟨a, ha, hd⟩ := List.mem_flatMap.1 hd
  exact h a ha d hd

/-- The rules for the members of a list report at or below the members. -/
theorem locatesAll_members {α : Type} {role : Role} {field : String} {element : α → Element}
    {items : List α} {f : α × ℕ → Breaches}
    (hparts : ∀ p ∈ Part.ofList role field element items, p ∈ e.parts)
    (h : ∀ p ∈ Part.ofList role field element items, ∀ a i, p.step = .item field i →
      p.element = element a →
        (Entity.element p.element).LocatesAll (place ++ [p.step]) (f (a, i))) :
    (Entity.element e).LocatesAll place (items.zipIdx.flatMap f) := by
  refine locatesAll_flatMap ?_
  rintro ⟨a, i⟩ ha
  obtain ⟨hi, heq⟩ := List.mem_zipIdx' ha
  have hp : ⟨role, .item field i, element a⟩ ∈ Part.ofList role field element items :=
    Part.mem_ofList.2 ⟨i, hi, by rw [heq]⟩
  exact locatesAll_child (mem_children_of_mem_parts (hparts _ hp)) (h _ hp a i rfl rfl)

/-- The rules for what stands in a field report there. -/
theorem locatesAll_slot {α : Type} {name : String} {g : α → Entity} {slot : Option α}
    {f : α → Breaches} (hchildren : ∀ child ∈ inField name g slot, child ∈ x.children)
    (h : ∀ a, AreAt (f a) (c.field name) (g a).type) :
    x.LocatesAll c.place (slot.toList.flatMap f) := by
  refine locatesAll_flatMap ?_
  intro a ha
  have hchild := hchildren _ (mem_inField.2 ⟨a, Option.mem_toList.1 ha, rfl⟩)
  exact locatesAll_child hchild (locatesAll_of_areAt (h a))

end Entity

/-- The rules for each part of the element report at the part or below it. -/
def Element.LocatesParts (e : Element) : Prop :=
  ∀ p ∈ e.parts, ∀ c, (Entity.element p.element).LocatesAll c.place (p.element.breaches c)

open Entity (locatesAll_append locatesAll_of_areAt locatesAll_members locatesAll_slot
  locatesAll_flatMap locatesAll_child)

section Below

variable {c : Context}

theorem Region.locates_listBreaches {e : Element} {regions : List Region} {role : Role}
    (hparts : ∀ p ∈ Part.ofList role "Regions" Element.region regions, p ∈ e.parts)
    (ih : e.LocatesParts) :
    (Entity.element e).LocatesAll c.place (listBreaches c regions 0) := by
  rw [listBreaches_eq_flatMap]
  refine locatesAll_members hparts ?_
  intro p hp r i hstep helement
  have := ih p (hparts p hp) (c.item "Regions" i)
  rw [helement] at this ⊢
  rw [hstep]
  exact this

theorem StateMachine.locates_breaches (m : StateMachine)
    (ih : (Element.stateMachine m).LocatesParts) :
    (Entity.element (.stateMachine m)).LocatesAll c.place (m.breaches c) := by
  have hpoints : (Entity.element (.stateMachine m)).LocatesAll c.place
      (m.pointBreaches (c.enterMachine m)) := by
    refine locatesAll_members (fun p hp => Element.mem_parts_stateMachine.2 (.inr hp)) ?_
    intro p hp a i hstep helement
    rw [hstep, helement]
    refine locatesAll_of_areAt (c := (c.enterMachine m).item "ConnectionPoints" i) ?_
    exact Breaches.areAt_append.2 ⟨areAt_breachIf _ _, Pseudostate.areAt_breaches _ a⟩
  have hregions : (Entity.element (.stateMachine m)).LocatesAll c.place
      (Region.listBreaches (c.enterMachine m) m.regions 0) :=
    Region.locates_listBreaches (fun p hp => Element.mem_parts_stateMachine.2 (.inl hp)) ih
  have hown : AreAt ((c.enterMachine m).require .stateMachine "ID" m.id
      ++ (c.enterMachine m).breachIf (m.regions.length = 0) .stateMachine .noRegions
      ++ (c.enterMachine m).breachIf (m.isMethod ∧ m.connectionPoints ≠ []) .stateMachine
        (.methodWithPoints m.id m.connectionPoints.length)) (c.enterMachine m) .stateMachine := by
    simp
  exact locatesAll_append.2 ⟨locatesAll_append.2 ⟨locatesAll_of_areAt hown, hpoints⟩, hregions⟩

theorem Region.locates_breaches (r : Region) (ih : (Element.region r).LocatesParts) :
    (Entity.element (.region r)).LocatesAll c.place (r.breaches c) := by
  have hvertices : (Entity.element (.region r)).LocatesAll c.place
      (r.vertexBreaches (c.enterRegion r)) := by
    refine locatesAll_members (fun p hp => Element.mem_parts_region.2 (.inr (.inl hp))) ?_
    intro p _ v i hstep helement
    rw [hstep, helement]
    exact locatesAll_of_areAt (c := (c.enterRegion r).item "Vertices" i)
      (RegionVertex.areAt_breaches _ v)
  have hstates : (Entity.element (.region r)).LocatesAll c.place
      (stateBreaches (c.enterRegion r) r r.states 0) := by
    rw [stateBreaches_eq_flatMap]
    refine locatesAll_flatMap ?_
    rintro ⟨t, i⟩ ht
    obtain ⟨hi, heq⟩ := List.mem_zipIdx' ht
    have hp : ⟨.member, .item "States" i, .state t⟩ ∈ (Element.region r).parts :=
      Element.mem_parts_region.2 (.inl (Part.mem_ofList.2 ⟨i, hi, by rw [heq]⟩))
    have hlisting := areAt_listingBreaches (c.enterRegion r) r t
    refine locatesAll_append.2 ⟨locatesAll_of_areAt hlisting, ?_⟩
    exact locatesAll_child (Entity.mem_children_of_mem_parts hp) (ih _ hp _)
  have htransitions : (Entity.element (.region r)).LocatesAll c.place
      (r.transitionBreaches (c.enterRegion r)) := by
    have hparts : ∀ p ∈ Part.ofList .member "Transitions" Element.transition r.transitions,
        p ∈ (Element.region r).parts := fun p hp => Element.mem_parts_region.2 (.inr (.inr hp))
    refine locatesAll_members hparts ?_
    intro p hp t i hstep helement
    have hown := ih p (hparts p hp) ((c.enterRegion r).item "Transitions" i)
    rw [helement] at hown ⊢
    rw [hstep]
    let c' := (c.enterRegion r).item "Transitions" i
    have hscope : (Entity.element (.transition t)).LocatesAll c'.place (t.scopeBreaches c' r) :=
      locatesAll_of_areAt (Transition.areAt_scopeBreaches c' r t)
    exact locatesAll_append.2 ⟨hown, hscope⟩
  rw [breaches_eq]
  simp only [locatesAll_append]
  exact ⟨⟨⟨⟨⟨locatesAll_of_areAt (c := c.enterRegion r) (Breaches.areAt_require _ _), hvertices⟩,
    locatesAll_of_areAt (areAt_multiplicityBreaches (c.enterRegion r) r)⟩, hstates⟩, htransitions⟩,
    locatesAll_of_areAt (areAt_initialBreaches (c.enterRegion r) r)⟩

theorem State.locates_actionBreaches (s : State) :
    (Entity.element (.state s)).LocatesAll c.place (s.actionBreaches c) := by
  have hslot {name : String} {slot : Option Behavior}
      (hsub : ∀ child ∈ Entity.inField name .behavior slot, child ∈ (Element.state s).attachments) :
      (Entity.element (.state s)).LocatesAll c.place
        (slot.toList.flatMap (·.breaches (c.field name))) :=
    locatesAll_slot (fun child h => Entity.mem_children_of_mem_attachments (hsub child h))
      fun b => Behavior.areAt_breaches _ b
  refine locatesAll_append.2 ⟨locatesAll_append.2 ⟨hslot ?_, hslot ?_⟩, hslot ?_⟩ <;>
    intro child h <;> simp [Element.attachments, h]

theorem State.locates_breaches (s : State) (ih : (Element.state s).LocatesParts) :
    (Entity.element (.state s)).LocatesAll c.place (s.breaches c) := by
  have hregions : (Entity.element (.state s)).LocatesAll c.place
      (Region.listBreaches c s.regions 0) :=
    Region.locates_listBreaches (fun p hp => Element.mem_parts_state.2 (.inl hp)) ih
  have hparts : ∀ p ∈ Part.ofList .member "Connections" Element.connectionPointReference
      s.connections, p ∈ (Element.state s).parts :=
    fun p hp => Element.mem_parts_state.2 (.inr (.inl hp))
  have hconnections : (Entity.element (.state s)).LocatesAll c.place
      (s.connections.zipIdx.flatMap fun x => x.1.breaches (c.item "Connections" x.2)) := by
    refine locatesAll_members hparts ?_
    intro p hp x i hstep helement
    have := ih p (hparts p hp) (c.item "Connections" i)
    rw [helement] at this ⊢
    rw [hstep]
    exact this
  have hpoints : (Entity.element (.state s)).LocatesAll c.place (s.connectionBreaches c) := by
    unfold connectionBreaches
    split
    · next m _ _ =>
      refine locatesAll_members hparts ?_
      intro p hp x i hstep helement
      rw [hstep, helement]
      exact locatesAll_of_areAt (c := c.item "Connections" i)
        (areAt_flatMap fun side _ => areAt_undeclaredPoints _ m x side)
    · exact List.forall_mem_nil _
  rw [breaches_eq]
  simp only [locatesAll_append]
  exact ⟨⟨⟨⟨⟨⟨⟨locatesAll_of_areAt (Vertex.areAt_shapeBreaches c .state s.toVertex),
    locatesAll_of_areAt (Vertex.areAt_tagBreaches c .state .state s.toVertex)⟩,
    locatesAll_of_areAt (areAt_compositionBreaches c s)⟩,
    locatesAll_of_areAt (areAt_submachineBreaches c s)⟩, s.locates_actionBreaches⟩, hregions⟩,
    hconnections⟩, hpoints⟩

theorem ConnectionPointReference.locates_breaches (x : ConnectionPointReference) :
    (Entity.element (.connectionPointReference x)).LocatesAll c.place (x.breaches c) := by
  have hown : AreAt (x.shapeBreaches c .connectionPointReference
      ++ c.breachIf (x.entry = [] ∧ x.exit = []) .connectionPointReference (.noPoints x.id)) c
      .connectionPointReference := by
    simp [Vertex.areAt_shapeBreaches]
  refine locatesAll_append.2 ⟨locatesAll_of_areAt hown, locatesAll_flatMap ?_⟩
  intro side _
  have hparts : ∀ p ∈ Part.ofList .referencePoint side.field Element.pseudostate (x.points side),
      p ∈ (Element.connectionPointReference x).parts := by
    intro p hp
    cases side
    · exact Element.mem_parts_connectionPointReference.2 (.inl hp)
    · exact Element.mem_parts_connectionPointReference.2 (.inr hp)
  refine locatesAll_members hparts ?_
  intro p _ q i hstep helement
  rw [hstep, helement]
  exact locatesAll_of_areAt (c := c.item side.field i) (Pseudostate.areAt_pointBreaches _ side q)

theorem Transition.locates_breaches (t : Transition) :
    (Entity.element (.transition t)).LocatesAll c.place (t.breaches c) := by
  have hown : AreAt (c.require .transition "ID" t.id
      ++ (TransitionEnd.all.flatMap fun side =>
        c.breachIf ((t.atEnd side).isNone) .transition (.noEnd side t.id))
      ++ c.breachIf (t.kind.isKnown = false) .transition (.unknownTransitionKind t.kind.text)
      ++ t.internalBreaches c) c .transition := by
    simp [areAt_internalBreaches, areAt_flatMap]
  have hguard : (Entity.element (.transition t)).LocatesAll c.place
      (t.guard.toList.flatMap (·.breaches (c.field "Guard"))) := by
    refine locatesAll_slot (g := .constraint) ?_ fun g => Constraint.areAt_breaches _ g
    intro child h
    exact Entity.mem_children_of_mem_attachments (by simp [Element.attachments, h])
  have heffect : (Entity.element (.transition t)).LocatesAll c.place
      (t.effect.toList.flatMap (·.breaches (c.field "Effect"))) := by
    refine locatesAll_slot (g := .behavior) ?_ fun b => Behavior.areAt_breaches _ b
    intro child h
    exact Entity.mem_children_of_mem_attachments (by simp [Element.attachments, h])
  have htriggers : (Entity.element (.transition t)).LocatesAll c.place
      (t.triggers.zipIdx.flatMap fun x => x.1.breaches (c.item "Triggers" x.2)) := by
    refine locatesAll_flatMap ?_
    rintro ⟨x, i⟩ hx
    obtain ⟨hi, heq⟩ := List.mem_zipIdx' hx
    have hchild :
        (Segment.item "Triggers" i, Entity.trigger x) ∈ (Element.transition t).attachments :=
      Element.mem_attachments_transition.2 (.inr (.inr ⟨i, hi, by rw [heq]⟩))
    exact locatesAll_child (Entity.mem_children_of_mem_attachments hchild)
      (locatesAll_of_areAt (c := c.item "Triggers" i) (Trigger.areAt_breaches _ x))
  exact locatesAll_append.2 ⟨locatesAll_append.2 ⟨locatesAll_append.2
    ⟨locatesAll_of_areAt hown, hguard⟩, heffect⟩, htriggers⟩

end Below

/-- The rules for an element report at the element or at what can be reached from it. -/
theorem Element.locates_breaches (e : Element) (c : Context) :
    (Entity.element e).LocatesAll c.place (e.breaches c) := by
  induction hn : sizeOf e using Nat.strongRecOn generalizing e c with
  | ind n ih =>
    have hparts : e.LocatesParts :=
      fun p hp c => ih _ (hn ▸ sizeOf_of_mem_parts hp) p.element c rfl
    cases e with
    | stateMachine m => exact m.locates_breaches hparts
    | region r => exact r.locates_breaches hparts
    | vertex v => exact locatesAll_of_areAt (RegionVertex.areAt_breaches c (.vertex v))
    | state s => exact s.locates_breaches hparts
    | pseudostate p => exact locatesAll_of_areAt (p.areAt_breaches c)
    | finalState f => exact locatesAll_of_areAt (RegionVertex.areAt_breaches c (.finalState f))
    | transition t => exact t.locates_breaches
    | connectionPointReference x => exact x.locates_breaches

theorem Entity.locates_breaches (x : Entity) (c : Context) :
    x.LocatesAll c.place (x.breaches c) := by
  cases x with
  | element e => exact e.locates_breaches c
  | regionVertex v => exact locatesAll_of_areAt (v.areAt_breaches c)
  | constraint x => exact locatesAll_of_areAt (x.areAt_breaches c)
  | behavior x => exact locatesAll_of_areAt (x.areAt_breaches c)
  | trigger x => exact locatesAll_of_areAt (x.areAt_breaches c)

end Statechart
