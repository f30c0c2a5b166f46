import Statechart.Proofs.Renaming.Model
import Statechart.Proofs.Wellformed.Clean

/-! The rules under a renaming, and further down. The rules compare IDs and ask whether they are
blank, and they write places down without reading them. So for renamed elements at places below some
base the rules find the same breaches in the same order, with the IDs in them renamed and the base
before their places. With the renaming that changes nothing this says what the rules read of their
context: the IDs of the machine and of the region, and whether advice is wanted. -/

namespace Statechart

/-- The same with its cause mapped, below a base. -/
def Located.recast {α : Type} (base : Locator) (g : α → α) (l : Located α) : Located α :=
  ⟨l.type, base ++ l.place, g l.cause⟩

def Breach.rename (f : Renaming) : Breach → Breach
  | blank field => blank field
  | unknownVertexType raw => unknownVertexType raw
  | wrongVertexType id expected found => wrongVertexType (f id) expected found
  | unknownPseudostateKind raw => unknownPseudostateKind raw
  | historyOutsideRegion kind id => historyOutsideRegion kind (f id)
  | connectionPointInRegion kind id region => connectionPointInRegion kind (f id) (f region)
  | noPoints id => noPoints (f id)
  | wrongPointKind side found => wrongPointKind side found
  | noEnd side transition => noEnd side (f transition)
  | unknownTransitionKind raw => unknownTransitionKind raw
  | internalBetween transition source target =>
    internalBetween (f transition) (f source) (f target)
  | simpleAndComposite state => simpleAndComposite (f state)
  | compositeWithoutRegions state => compositeWithoutRegions (f state)
  | regionsWithoutComposite state count => regionsWithoutComposite (f state) count
  | orthogonalNotComposite state => orthogonalNotComposite (f state)
  | orthogonalWithFewRegions state count => orthogonalWithFewRegions (f state) count
  | submachineNotDeclared state submachine => submachineNotDeclared (f state) (f submachine)
  | connectionsNotDeclared state => connectionsNotDeclared (f state)
  | submachineMissing state => submachineMissing (f state)
  | submachineEnclosing state submachine => submachineEnclosing (f state) (f submachine)
  | submachineWithRegions state => submachineWithRegions (f state)
  | submachineComposite state => submachineComposite (f state)
  | pointNotDeclared side position point submachine =>
    pointNotDeclared side position (f point) (f submachine)
  | severalInitial region indices => severalInitial (f region) indices
  | severalAdvised region kind indices => severalAdvised (f region) kind indices
  | stateNotListed state region => stateNotListed (f state) (f region)
  | endOutsideRegion side vertex region => endOutsideRegion side (f vertex) (f region)
  | finalSource vertex transition => finalSource (f vertex) (f transition)
  | localFromSimple transition state => localFromSimple (f transition) (f state)
  | initialTarget vertex => initialTarget (f vertex)
  | initialSources vertex count => initialSources (f vertex) count
  | noRegions => noRegions
  | methodWithPoints machine count => methodWithPoints (f machine) count
  | notConnectionPoint id found => notConnectionPoint (f id) found

@[simp] theorem Breach.rename_refl (b : Breach) : b.rename .refl = b := by cases b <;> rfl

/-- A renaming keeps the kind and the field of a breach. -/
theorem Breach.rename_heading (f : Renaming) (b : Breach) :
    (b.rename f).kind = b.kind ∧ (b.rename f).field = b.field := by
  cases b <;> exact ⟨rfl, rfl⟩

/-- The second breaches are the first ones in order, with their IDs renamed, below a base. -/
def Breaches.IsRecast (f : Renaming) (base : Locator) (l l' : Breaches) : Prop :=
  l' = l.map (Located.recast base (Breach.rename f))

/-- The second context is the first one with its IDs renamed, below a base. -/
structure Context.IsRecast (f : Renaming) (base : Locator) (c c' : Context) : Prop where
  machine : c'.machine.map (·.id) = (c.machine.map (·.id)).map f
  region : c'.region.map (·.id) = (c.region.map (·.id)).map f
  bestPractices : c'.options.bestPractices = c.options.bestPractices
  place : c'.place = base ++ c.place

variable {f : Renaming} {base : Locator} {c c' : Context}

namespace Breaches.IsRecast

variable {α : Type} {l l' k k' : Breaches}

theorem nil : Breaches.IsRecast f base [] [] := rfl

theorem append (hl : IsRecast f base l l') (hk : IsRecast f base k k') :
    IsRecast f base (l ++ k) (l' ++ k') := by
  rw [IsRecast, hl, hk, List.map_append]

theorem flatMap {items : List α} {F F' : α → Breaches}
    (h : ∀ x ∈ items, IsRecast f base (F x) (F' x)) :
    IsRecast f base (items.flatMap F) (items.flatMap F') := by
  rw [IsRecast, List.map_flatMap]
  exact List.flatMap_congr h

theorem flatMap_zipIdx {items : List α} {g : α → α} {F F' : α × ℕ → Breaches}
    (h : ∀ x ∈ items, ∀ i, IsRecast f base (F (x, i)) (F' (g x, i))) :
    IsRecast f base (items.zipIdx.flatMap F) ((items.map g).zipIdx.flatMap F') := by
  rw [IsRecast, List.zipIdx_map, List.flatMap_map, List.map_flatMap]
  apply List.flatMap_congr
  rintro ⟨x, i⟩ hx
  exact h x (List.fst_mem_of_mem_zipIdx hx) i

end Breaches.IsRecast

namespace Context.IsRecast

theorem field (h : c.IsRecast f base c') (name : String) :
    (c.field name).IsRecast f base (c'.field name) :=
  { h with place := by simp [Context.field, h.place] }

theorem item (h : c.IsRecast f base c') (name : String) (i : ℕ) :
    (c.item name i).IsRecast f base (c'.item name i) :=
  { h with place := by simp [Context.item, h.place] }

theorem enterMachine (h : c.IsRecast f base c') (m : StateMachine) :
    (c.enterMachine m).IsRecast f base (c'.enterMachine (m.rename f)) :=
  { h with
    machine := by simp [Context.enterMachine]
    region := rfl }

theorem enterRegion (h : c.IsRecast f base c') (r : Region) :
    (c.enterRegion r).IsRecast f base (c'.enterRegion (r.rename f)) :=
  { h with region := by simp [Context.enterRegion] }

theorem breachIf (h : c.IsRecast f base c') {bad bad' : Prop} [Decidable bad] [Decidable bad']
    (hbad : bad' ↔ bad) (type : EntityType) (cause : Breach) :
    (c.breachIf bad type cause).IsRecast f base (c'.breachIf bad' type (cause.rename f)) := by
  unfold Context.breachIf Breaches.IsRecast
  by_cases hb : bad
  · rw [if_pos hb, if_pos (hbad.2 hb), h.place]
    rfl
  · rw [if_neg hb, if_neg (hbad.not.2 hb)]
    rfl

theorem require (h : c.IsRecast f base c') (type : EntityType) (field : String)
    {value value' : String} (hvalue : Text.isBlank value' = Text.isBlank value) :
    (c.require type field value).IsRecast f base (c'.require type field value') :=
  h.breachIf (by rw [hvalue]) type (.blank field)

end Context.IsRecast

/-! ### Vertices -/

namespace Vertex

theorem shapeBreaches_rename (h : c.IsRecast f base c') (type : EntityType) (v : Vertex) :
    (v.shapeBreaches c type).IsRecast f base ((v.rename f).shapeBreaches c' type) :=
  (h.require type "ID" (f.isBlank_map v.id)).append
    (h.breachIf .rfl type (.unknownVertexType v.type.text))

theorem tagBreaches_rename (h : c.IsRecast f base c') (type : EntityType) (expected : VertexType)
    (v : Vertex) :
    (v.tagBreaches c type expected).IsRecast f base
      ((v.rename f).tagBreaches c' type expected) :=
  h.breachIf .rfl type (.wrongVertexType v.id expected v.type)

end Vertex

namespace Pseudostate

theorem kindBreaches_rename (h : c.IsRecast f base c') (p : Pseudostate) :
    (p.kindBreaches c).IsRecast f base ((p.rename f).kindBreaches c') := by
  have hregion := h.region
  unfold kindBreaches
  rw [kind_rename]
  split
  · cases hr : c.region with
    | none =>
      have hr' : c'.region = none := by simpa [hr] using hregion
      rw [hr']
      exact (h.breachIf .rfl _ (.historyOutsideRegion p.kind p.id)).append .nil
    | some r =>
      obtain ⟨r', hr', hid⟩ : ∃ r', c'.region = some r' ∧ r'.id = f r.id := by
        simpa [hr] using hregion
      rw [hr']
      simp only [hid]
      exact (h.breachIf .rfl _ (.historyOutsideRegion p.kind p.id)).append
        (h.breachIf .rfl _ (.connectionPointInRegion p.kind p.id r.id))
  · exact h.breachIf .rfl _ (.unknownPseudostateKind p.kind.text)

theorem breaches_rename (h : c.IsRecast f base c') (p : Pseudostate) :
    (p.breaches c).IsRecast f base ((p.rename f).breaches c') :=
  ((p.shapeBreaches_rename h _).append (p.tagBreaches_rename h _ _)).append
    (p.kindBreaches_rename h)

theorem pointBreaches_rename (h : c.IsRecast f base c') (side : PointSide) (p : Pseudostate) :
    (p.pointBreaches c side).IsRecast f base ((p.rename f).pointBreaches c' side) := by
  refine (h.require _ "ID" (f.isBlank_map p.id)).append ?_
  rw [kind_rename]
  split
  · exact h.breachIf .rfl _ (.wrongPointKind side p.kind)
  · exact h.breachIf .rfl _ (.unknownPseudostateKind p.kind.text)

end Pseudostate

theorem FinalState.breaches_rename (h : c.IsRecast f base c') (x : FinalState) :
    (x.breaches c).IsRecast f base ((x.rename f).breaches c') :=
  (x.shapeBreaches_rename h _).append (x.tagBreaches_rename h _ _)

theorem RegionVertex.breaches_rename (h : c.IsRecast f base c') (v : RegionVertex) :
    (v.breaches c).IsRecast f base ((v.rename f).breaches c') := by
  cases v with
  | vertex v => exact v.shapeBreaches_rename h _
  | pseudostate p => exact p.breaches_rename h
  | finalState x => exact x.breaches_rename h

theorem ConnectionPointReference.breaches_rename (h : c.IsRecast f base c')
    (x : ConnectionPointReference) :
    (x.breaches c).IsRecast f base ((x.rename f).breaches c') := by
  have hempty : (x.rename f).entry = [] ∧ (x.rename f).exit = [] ↔ x.entry = [] ∧ x.exit = [] := by
    simp [rename]
  refine ((x.shapeBreaches_rename h _).append (h.breachIf hempty _ (.noPoints x.id))).append ?_
  refine .flatMap fun side _ => ?_
  rw [points_rename]
  exact .flatMap_zipIdx fun p _ i => p.pointBreaches_rename (h.item side.field i) side

/-! ### Transitions

Conditions, actions and triggers keep their IDs. -/

theorem Constraint.breaches_recast (h : c.IsRecast f base c') (x : Constraint) :
    (x.breaches c).IsRecast f base (x.breaches c') :=
  (h.require _ "ID" rfl).append (h.require _ "Specification" rfl)

theorem Behavior.breaches_recast (h : c.IsRecast f base c') (x : Behavior) :
    (x.breaches c).IsRecast f base (x.breaches c') :=
  (h.require _ "ID" rfl).append (h.require _ "Specification" rfl)

theorem Trigger.breaches_recast (h : c.IsRecast f base c') (x : Trigger) :
    (x.breaches c).IsRecast f base (x.breaches c') :=
  (h.require _ "ID" rfl).append (h.require _ "Event" rfl)

namespace Region

theorem vertex?_rename (r : Region) (id : String) :
    (r.rename f).vertex? (f id) = (r.vertex? id).map (·.rename f) := by
  simp only [vertex?, vertices_rename, List.find?_map, Function.comp_def, RegionVertex.id_rename,
    Renaming.map_eq_iff]

theorem state?_rename (r : Region) (id : String) :
    (r.rename f).state? (f id) = (r.state? id).map (·.rename f) := by
  simp only [state?, states_rename, List.find?_map, Function.comp_def, State.toVertex_rename,
    Vertex.id_rename, Renaming.map_eq_iff]

theorem hasMember_rename (r : Region) (id : String) :
    (r.rename f).hasMember (f id) = r.hasMember id := by
  simp only [hasMember, vertex?_rename, state?_rename, Option.isSome_map]

end Region

namespace Transition

theorem internalBreaches_rename (h : c.IsRecast f base c') (t : Transition) :
    (t.internalBreaches c).IsRecast f base ((t.rename f).internalBreaches c') := by
  obtain ⟨id, name, source, target, kind, guard, effect, triggers⟩ := t
  cases source with
  | none => exact .nil
  | some v =>
    cases target with
    | none => exact .nil
    | some w =>
      exact h.breachIf (and_congr_right fun _ => f.map_eq_iff.not) _
        (.internalBetween id v.id w.id)

theorem breaches_rename (h : c.IsRecast f base c') (t : Transition) :
    (t.breaches c).IsRecast f base ((t.rename f).breaches c') := by
  have hends : Breaches.IsRecast f base
      (TransitionEnd.all.flatMap fun side =>
        c.breachIf ((t.atEnd side).isNone) .transition (.noEnd side t.id))
      (TransitionEnd.all.flatMap fun side =>
        c'.breachIf (((t.rename f).atEnd side).isNone) .transition
          (.noEnd side (t.rename f).id)) :=
    .flatMap fun side _ => h.breachIf (by simp) _ (.noEnd side t.id)
  exact ((((((h.require _ "ID" (f.isBlank_map t.id)).append hends).append
    (h.breachIf .rfl _ (.unknownTransitionKind t.kind.text))).append
    (t.internalBreaches_rename h)).append
    (.flatMap fun x _ => x.breaches_recast (h.field "Guard"))).append
    (.flatMap fun x _ => x.breaches_recast (h.field "Effect"))).append
    (.flatMap fun x _ => x.1.breaches_recast (h.item "Triggers" x.2))

theorem endBreaches_rename (h : c.IsRecast f base c') (r : Region) (t : Transition)
    (side : TransitionEnd) :
    (t.endBreaches c r side).IsRecast f base ((t.rename f).endBreaches c' (r.rename f) side) := by
  unfold endBreaches
  rw [atEnd_rename]
  cases t.atEnd side with
  | none => exact .nil
  | some v =>
    have hmember : (r.rename f).hasMember (v.rename f).id = r.hasMember v.id :=
      r.hasMember_rename v.id
    simp only [Option.map_some, hmember, Region.id_rename]
    exact h.breachIf (by simp) _ (.endOutsideRegion side v.id r.id)

theorem isFinal_rename (r : Region) (v : Vertex) :
    isFinal (r.rename f) (v.rename f) = isFinal r v := by
  have hvertex : (r.rename f).vertex? (v.rename f).id = (r.vertex? v.id).map (·.rename f) :=
    r.vertex?_rename v.id
  rw [isFinal, isFinal, hvertex, Option.any_map]
  simp only [RegionVertex.isFinalState_rename]
  rfl

theorem sourceBreaches_rename (h : c.IsRecast f base c') (r : Region) (t : Transition) :
    (t.sourceBreaches c r).IsRecast f base ((t.rename f).sourceBreaches c' (r.rename f)) := by
  have hsource : (t.rename f).source = t.source.map (·.rename f) := rfl
  unfold sourceBreaches
  rw [hsource]
  cases t.source with
  | none => exact .nil
  | some v =>
    have hstate : (r.rename f).state? (v.rename f).id = (r.state? v.id).map (·.rename f) :=
      r.state?_rename v.id
    have hcomposite : ((r.rename f).state? (v.rename f).id).any (!·.isComposite) =
        (r.state? v.id).any (!·.isComposite) := by
      rw [hstate, Option.any_map]
      simp only [(State.rename_frame f _).2.1]
    simp only [Option.map_some, hcomposite]
    exact (h.breachIf (by rw [isFinal_rename]) _ (.finalSource v.id t.id)).append
      (h.breachIf .rfl _ (.localFromSimple t.id v.id))

theorem scopeBreaches_rename (h : c.IsRecast f base c') (r : Region) (t : Transition) :
    (t.scopeBreaches c r).IsRecast f base ((t.rename f).scopeBreaches c' (r.rename f)) :=
  (Breaches.IsRecast.flatMap fun side _ => t.endBreaches_rename h r side).append
    (t.sourceBreaches_rename h r)

end Transition

/-! ### States -/

namespace State

theorem compositionBreaches_rename (h : c.IsRecast f base c') (s : State) :
    (s.compositionBreaches c).IsRecast f base ((s.rename f).compositionBreaches c') := by
  obtain ⟨hsimple, hcomposite, horthogonal, -⟩ := s.rename_frame f
  unfold compositionBreaches
  simp only [hsimple, hcomposite, horthogonal, regions_rename, List.length_map, toVertex_rename,
    Vertex.id_rename]
  exact ((((h.breachIf .rfl _ (.simpleAndComposite s.id)).append
    (h.breachIf .rfl _ (.compositeWithoutRegions s.id))).append
    (h.breachIf .rfl _ (.regionsWithoutComposite s.id s.regions.length))).append
    (h.breachIf .rfl _ (.orthogonalNotComposite s.id))).append
    (h.breachIf .rfl _ (.orthogonalWithFewRegions s.id s.regions.length))

theorem plainBreaches_rename (h : c.IsRecast f base c') (s : State) :
    (s.plainBreaches c).IsRecast f base ((s.rename f).plainBreaches c') := by
  unfold plainBreaches
  simp only [submachine_rename, connections_rename, toVertex_rename, Vertex.id_rename]
  refine .append ?_ (h.breachIf (by simp) _ (.connectionsNotDeclared s.id))
  cases s.submachine with
  | none => exact .nil
  | some m =>
    simp only [Option.map_some, StateMachine.id_rename]
    exact h.breachIf .rfl _ (.submachineNotDeclared s.id m.id)

theorem standInBreaches_rename (h : c.IsRecast f base c') (s : State) :
    (s.standInBreaches c).IsRecast f base ((s.rename f).standInBreaches c') := by
  unfold standInBreaches
  simp only [submachine_rename, regions_rename, (s.rename_frame f).2.1, List.length_map,
    toVertex_rename, Vertex.id_rename]
  refine (Breaches.IsRecast.append ?_ (h.breachIf .rfl _ (.submachineWithRegions s.id))).append
    (h.breachIf .rfl _ (.submachineComposite s.id))
  cases s.submachine with
  | none => exact h.breachIf .rfl _ (.submachineMissing s.id)
  | some m =>
    have henclosing : c'.machine.map (·.id) = some (f m.id) ↔
        c.machine.map (·.id) = some m.id := by
      rw [h.machine]
      simp [Option.map_eq_some_iff]
    simp only [Option.map_some, StateMachine.id_rename, henclosing]
    exact h.breachIf (by simp) _ (.submachineEnclosing s.id m.id)

theorem submachineBreaches_rename (h : c.IsRecast f base c') (s : State) :
    (s.submachineBreaches c).IsRecast f base ((s.rename f).submachineBreaches c') := by
  unfold submachineBreaches
  rw [(s.rename_frame f).2.2.2.1]
  split
  · exact s.standInBreaches_rename h
  · exact s.plainBreaches_rename h

theorem undeclaredPoints_rename (h : c.IsRecast f base c') (m : StateMachine)
    (x : ConnectionPointReference) (side : PointSide) :
    (undeclaredPoints c m x side).IsRecast f base
      (undeclaredPoints c' (m.rename f) (x.rename f) side) := by
  have hpoint (id : String) :
      (m.rename f).connectionPoint? (f id) = (m.connectionPoint? id).map (·.rename f) := by
    simp only [StateMachine.connectionPoint?, StateMachine.connectionPoints_rename, List.find?_map,
      Function.comp_def, Pseudostate.toVertex_rename, Vertex.id_rename, Renaming.map_eq_iff]
  unfold undeclaredPoints
  rw [ConnectionPointReference.points_rename]
  refine .flatMap_zipIdx fun p _ i => ?_
  simp only [Pseudostate.toVertex_rename, Vertex.id_rename, hpoint, StateMachine.id_rename]
  exact h.breachIf (by simp) _ (.pointNotDeclared side i p.id m.id)

theorem connectionBreaches_rename (h : c.IsRecast f base c') (s : State) :
    (s.connectionBreaches c).IsRecast f base ((s.rename f).connectionBreaches c') := by
  unfold connectionBreaches
  rw [(s.rename_frame f).2.2.2.1, submachine_rename, connections_rename]
  cases s.isSubmachineState with
  | false => exact .nil
  | true =>
    cases s.submachine with
    | none => exact .nil
    | some m =>
      exact .flatMap_zipIdx fun x _ i => .flatMap fun side _ =>
        undeclaredPoints_rename (h.item "Connections" i) m x side

theorem actionBreaches_rename (h : c.IsRecast f base c') (s : State) :
    (s.actionBreaches c).IsRecast f base ((s.rename f).actionBreaches c') := by
  obtain ⟨-, -, -, -, hentry, hexit, hact⟩ := s.rename_frame f
  unfold actionBreaches
  rw [hentry, hexit, hact]
  exact ((Breaches.IsRecast.flatMap fun x _ => x.breaches_recast (h.field "Entry")).append
    (.flatMap fun x _ => x.breaches_recast (h.field "Exit"))).append
    (.flatMap fun x _ => x.breaches_recast (h.field "DoActivity"))

end State

/-! ### Regions -/

namespace Region

theorem pseudostateIndices_rename (r : Region) (kind : PseudostateKind) :
    (r.rename f).pseudostateIndices kind = r.pseudostateIndices kind := by
  unfold pseudostateIndices
  rw [vertices_rename, List.zipIdx_map, List.filterMap_map]
  apply List.filterMap_congr
  rintro ⟨v, i⟩ -
  cases v <;> rfl

theorem initialIds_rename (r : Region) : (r.rename f).initialIds = r.initialIds.map f := by
  unfold initialIds
  rw [vertices_rename, List.filterMap_map, List.map_filterMap]
  apply List.filterMap_congr
  intro v _
  cases v with
  | pseudostate p => by_cases hkind : p.kind = .initial <;> simp [RegionVertex.rename, hkind]
  | _ => rfl

/-- A renaming keeps how many transitions have an end with an ID. -/
theorem length_filter_rename (endId? : Transition → Option String)
    (h : ∀ t, endId? (t.rename f) = (endId? t).map f) (l : List Transition) (id : String) :
    ((l.map (·.rename f)).filter (endId? · = some (f id))).length =
      (l.filter (endId? · = some id)).length := by
  rw [List.filter_map, List.length_map]
  congr 1
  apply List.filter_congr
  intro t _
  simp only [Function.comp_apply, h, Option.map_eq_some_iff, Renaming.map_eq_iff,
    exists_eq_right]

theorem multiplicityBreaches_rename (h : c.IsRecast f base c') (r : Region) :
    (r.multiplicityBreaches c).IsRecast f base ((r.rename f).multiplicityBreaches c') := by
  unfold multiplicityBreaches
  simp only [pseudostateIndices_rename, h.bestPractices, id_rename]
  refine (h.breachIf .rfl _ (.severalInitial r.id (r.pseudostateIndices .initial))).append ?_
  split
  · exact .flatMap fun kind _ =>
      h.breachIf .rfl _ (.severalAdvised r.id kind (r.pseudostateIndices kind))
  · exact .nil

theorem initialBreaches_rename (h : c.IsRecast f base c') (r : Region) :
    (r.initialBreaches c).IsRecast f base ((r.rename f).initialBreaches c') := by
  unfold initialBreaches
  rw [initialIds_rename, Breaches.IsRecast, List.flatMap_map, List.map_flatMap]
  apply List.flatMap_congr
  intro id _
  have htarget (t : Transition) : (t.rename f).targetId? = t.targetId?.map f := by
    simp [Transition.targetId?, Transition.rename, Function.comp_def]
  have hsource (t : Transition) : (t.rename f).sourceId? = t.sourceId?.map f := by
    simp [Transition.sourceId?, Transition.rename, Function.comp_def]
  have hin := length_filter_rename Transition.targetId? htarget r.transitions id
  have hout := length_filter_rename Transition.sourceId? hsource r.transitions id
  simp only [transitions_rename, hin, hout, Renaming.isBlank_apply]
  split
  · rfl
  · exact (h.breachIf .rfl _ (.initialTarget id)).append (h.breachIf .rfl _ (.initialSources id _))

theorem vertexBreaches_rename (h : c.IsRecast f base c') (r : Region) :
    (r.vertexBreaches c).IsRecast f base ((r.rename f).vertexBreaches c') := by
  unfold vertexBreaches
  rw [vertices_rename]
  exact .flatMap_zipIdx fun v _ i => v.breaches_rename (h.item "Vertices" i)

theorem transitionBreaches_rename (h : c.IsRecast f base c') (r : Region) :
    (r.transitionBreaches c).IsRecast f base ((r.rename f).transitionBreaches c') := by
  unfold transitionBreaches
  rw [transitions_rename]
  exact .flatMap_zipIdx fun t _ i => (t.breaches_rename (h.item "Transitions" i)).append
    (t.scopeBreaches_rename (h.item "Transitions" i) r)

theorem listingBreaches_rename (h : c.IsRecast f base c') (r : Region) (s : State) :
    (r.listingBreaches c s).IsRecast f base ((r.rename f).listingBreaches c' (s.rename f)) := by
  unfold listingBreaches
  simp only [State.toVertex_rename, Vertex.id_rename, vertex?_rename, id_rename]
  exact h.breachIf (by simp) _ (.stateNotListed s.id r.id)

end Region

/-- The rules for a region, provided that those for its states do the same. -/
theorem Region.breaches_rename_of_states (h : c.IsRecast f base c') (r : Region)
    (hstates : ∀ s ∈ r.states, ∀ d d' : Context, d.IsRecast f base d' →
      (s.breaches d).IsRecast f base ((s.rename f).breaches d')) :
    (r.breaches c).IsRecast f base ((r.rename f).breaches c') := by
  have hin := h.enterRegion r
  rw [breaches_eq, breaches_eq, stateBreaches_eq_flatMap, stateBreaches_eq_flatMap, states_rename]
  exact (((((hin.require _ "ID" (by simp)).append (r.vertexBreaches_rename hin)).append
    (r.multiplicityBreaches_rename hin)).append
    (.flatMap_zipIdx fun s hs i => (r.listingBreaches_rename hin s).append
      (hstates s hs _ _ (hin.item "States" i)))).append
    (r.transitionBreaches_rename hin)).append (r.initialBreaches_rename hin)

/-- The rules for a state, provided that those for its regions do the same. -/
theorem State.breaches_rename_of_regions (h : c.IsRecast f base c') (s : State)
    (hregions : ∀ r ∈ s.regions, ∀ d d' : Context, d.IsRecast f base d' →
      (r.breaches d).IsRecast f base ((r.rename f).breaches d')) :
    (s.breaches c).IsRecast f base ((s.rename f).breaches c') := by
  have hlist : (Region.listBreaches c s.regions 0).IsRecast f base
      (Region.listBreaches c' (s.rename f).regions 0) := by
    rw [Region.listBreaches_eq_flatMap, Region.listBreaches_eq_flatMap, regions_rename]
    exact .flatMap_zipIdx fun r hr i => hregions r hr _ _ (h.item "Regions" i)
  have hconnections : Breaches.IsRecast f base
      (s.connections.zipIdx.flatMap fun x => x.1.breaches (c.item "Connections" x.2))
      ((s.rename f).connections.zipIdx.flatMap fun x =>
        x.1.breaches (c'.item "Connections" x.2)) := by
    rw [connections_rename]
    exact .flatMap_zipIdx fun x _ i => x.breaches_rename (h.item "Connections" i)
  rw [breaches_eq, breaches_eq, toVertex_rename]
  exact (((((((s.shapeBreaches_rename h _).append (s.tagBreaches_rename h _ _)).append
    (s.compositionBreaches_rename h)).append (s.submachineBreaches_rename h)).append
    (s.actionBreaches_rename h)).append hlist).append hconnections).append
    (s.connectionBreaches_rename h)

mutual

theorem Region.breaches_rename (r : Region) {f : Renaming} {base : Locator} {c c' : Context}
    (h : c.IsRecast f base c') :
    (r.breaches c).IsRecast f base ((r.rename f).breaches c') :=
  r.breaches_rename_of_states h fun s _ _ _ hd => s.breaches_rename hd
termination_by sizeOf r
decreasing_by
  cases r
  have := List.sizeOf_lt_of_mem ‹s ∈ _›
  simp_all
  omega

theorem State.breaches_rename (s : State) {f : Renaming} {base : Locator} {c c' : Context}
    (h : c.IsRecast f base c') :
    (s.breaches c).IsRecast f base ((s.rename f).breaches c') :=
  s.breaches_rename_of_regions h fun r _ _ _ hd => r.breaches_rename hd
termination_by sizeOf s
decreasing_by
  cases s
  have := List.sizeOf_lt_of_mem ‹r ∈ _›
  simp_all
  omega

end

/-! ### Machines -/

namespace StateMachine

theorem pointBreaches_rename (h : c.IsRecast f base c') (m : StateMachine) :
    (m.pointBreaches c).IsRecast f base ((m.rename f).pointBreaches c') := by
  unfold pointBreaches
  rw [connectionPoints_rename]
  exact .flatMap_zipIdx fun p _ i =>
    ((h.item "ConnectionPoints" i).breachIf .rfl _ (.notConnectionPoint p.id p.kind)).append
      (p.breaches_rename (h.item "ConnectionPoints" i))

theorem breaches_rename (h : c.IsRecast f base c') (m : StateMachine) :
    (m.breaches c).IsRecast f base ((m.rename f).breaches c') := by
  have hin := h.enterMachine m
  have hlist : (Region.listBreaches (c.enterMachine m) m.regions 0).IsRecast f base
      (Region.listBreaches (c'.enterMachine (m.rename f)) (m.regions.map (·.rename f)) 0) := by
    rw [Region.listBreaches_eq_flatMap, Region.listBreaches_eq_flatMap]
    exact .flatMap_zipIdx fun r _ i => r.breaches_rename (hin.item "Regions" i)
  unfold breaches
  simp only [regions_rename, List.length_map, isMethod_rename, connectionPoints_rename, id_rename]
  exact ((((hin.require _ "ID" (f.isBlank_map m.id)).append
    (hin.breachIf .rfl _ .noRegions)).append
    (hin.breachIf (by simp) _ (.methodWithPoints m.id m.connectionPoints.length))).append
    (m.pointBreaches_rename hin)).append hlist

end StateMachine

theorem Element.breaches_rename (h : c.IsRecast f base c') (e : Element) :
    (e.breaches c).IsRecast f base ((e.rename f).breaches c') := by
  cases e with
  | stateMachine m => exact m.breaches_rename h
  | region r => exact r.breaches_rename h
  | vertex v => exact v.shapeBreaches_rename h _
  | state s => exact s.breaches_rename h
  | pseudostate p => exact p.breaches_rename h
  | finalState x => exact x.breaches_rename h
  | transition t => exact t.breaches_rename h
  | connectionPointReference x => exact x.breaches_rename h

theorem Entity.breaches_rename (h : c.IsRecast f base c') (x : Entity) :
    (x.breaches c).IsRecast f base ((x.rename f).breaches c') := by
  cases x with
  | element e => exact e.breaches_rename h
  | regionVertex v => exact v.breaches_rename h
  | constraint x => exact x.breaches_recast h
  | behavior x => exact x.breaches_recast h
  | trigger x => exact x.breaches_recast h

/-! ### Other places -/

/-- The contexts differ in nothing that decides whether the rules find something. -/
structure Context.Alike (c c' : Context) : Prop where
  machine : c'.machine.map (·.id) = c.machine.map (·.id)
  region : c'.region.map (·.id) = c.region.map (·.id)
  bestPractices : c'.options.bestPractices = c.options.bestPractices

theorem Context.alike_item (c : Context) (name : String) (i : ℕ) : c.Alike (c.item name i) :=
  ⟨rfl, rfl, rfl⟩

/-- The breaches in a context are those in one like it, moved from no place to its place. -/
theorem Entity.breaches_at (x : Entity) (h : c.Alike c') :
    x.breaches c' = (x.breaches { c with place := [] }).map (Located.recast c'.place id) := by
  have hcontext : Context.IsRecast .refl c'.place { c with place := [] } c' :=
    ⟨by simp [h.machine, Function.comp_def], by simp [h.region, Function.comp_def],
      h.bestPractices, (List.append_nil _).symm⟩
  have hrecast := x.breaches_rename hcontext
  rw [x.rename_refl] at hrecast
  rw [hrecast, show Breach.rename .refl = id from funext Breach.rename_refl]

end Statechart
