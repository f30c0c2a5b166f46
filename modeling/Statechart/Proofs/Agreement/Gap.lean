import Statechart.Proofs.Agreement.Own

/-! What is missing in a machine: IDs, ends of transitions, and machines that states say they stand
for. The gaps of an element can be read off it, and the rules for the element by itself report its
gaps and no others. -/

namespace Statechart

inductive GapKind where
  | id
  | field (name : String)
  | submachine
deriving DecidableEq

/-- Something that is missing on an element of the type and at the place given. -/
structure Gap where
  type : EntityType
  place : Locator
  kind : GapKind
deriving DecidableEq

/-- The types of what has a place of its own in a model. -/
def EntityType.isElement : EntityType → Bool
  | constraint | behavior | trigger => false
  | _ => true

/-- The gap that a blank text is. -/
def GapKind.ofText (field : String) : GapKind := if field = "ID" then .id else .field field

/-- The gap that an empty slot is. -/
def GapKind.ofSlot (field : String) : GapKind :=
  if field = "Submachine" then .submachine else .field field

/-- An empty slot for a reference. -/
def Reference.gap? (r : Reference) : Option Gap :=
  match r.target with
  | none => some ⟨r.type, r.place, .ofSlot r.field⟩
  | some _ => none

namespace Encounter

def idGaps (x : Encounter) : List Gap :=
  if Text.isBlank x.element.id then [⟨x.type, x.place, .id⟩] else []

def slotGaps (x : Encounter) : List Gap := x.ownReferences.filterMap Reference.gap?

/-- What is missing on the element itself. -/
def gaps (x : Encounter) : List Gap := x.idGaps ++ x.slotGaps

/-- What is missing on the element and on what belongs to it. -/
def ownGaps (x : Encounter) : List Gap := (x.tree.filter (·.place.IsOwn)).flatMap gaps

variable {x : Encounter}

theorem ownGaps_of_not_own (h : ¬ x.place.IsOwn) : x.ownGaps = [] := by
  rw [ownGaps, filter_own_tree_eq_nil h, List.flatMap_nil]

theorem ownGaps_eq (h : x.place.IsOwn) :
    x.ownGaps = x.gaps ++ x.element.parts.flatMap fun p => (x.part p).ownGaps := by
  rw [ownGaps, tree_eq, List.filter_cons, if_pos (by simpa using h), List.flatMap_cons,
    List.filter_flatMap, List.flatMap_assoc]
  rfl

theorem slotGaps_eq_nil (hstate : x.type ≠ .state) (htransition : x.type ≠ .transition) :
    x.slotGaps = [] := by
  unfold slotGaps ownReferences
  unfold type at hstate htransition
  cases hx : x.element <;> rw [hx] at hstate htransition <;>
    first | rfl | exact absurd rfl hstate | exact absurd rfl htransition

theorem slotGaps_state {s : State} (h : x.element = .state s) :
    x.slotGaps =
      if s.isSubmachineState ∧ s.submachine.isNone then [⟨.state, x.place, .submachine⟩]
      else [] := by
  rw [slotGaps, ownReferences, h]
  simp only [type, h]
  split <;> rfl

theorem slotGaps_transition {t : Transition} (h : x.element = .transition t) :
    x.slotGaps = TransitionEnd.all.flatMap fun side =>
      if (t.atEnd side).isNone then [⟨.transition, x.place, .field side.field⟩] else [] := by
  have hside (side : TransitionEnd) : (x.endReferences t side).filterMap Reference.gap? =
      if (t.atEnd side).isNone then [⟨.transition, x.place, .field side.field⟩] else [] := by
    unfold endReferences
    rw [type, h]
    cases t.atEnd side with
    | none => cases side <;> rfl
    | some v => cases hid : Text.isBlank v.id <;> simp [hid, Reference.gap?]
  rw [slotGaps, ownReferences, h]
  simp only [List.filterMap_append, hside]
  simp [TransitionEnd.all]

end Encounter

namespace Breaches

/-- What a breach says is missing. Conditions, actions and triggers are not elements. -/
def gap? (b : Located Breach) : Option Gap :=
  match b.cause with
  | .blank field => if b.type.isElement then some ⟨b.type, b.place, .ofText field⟩ else none
  | .noEnd side _ => some ⟨b.type, b.place, .field side.field⟩
  | .submachineMissing _ => some ⟨b.type, b.place, .submachine⟩
  | _ => none

/-- What breaches report as missing. -/
def gaps (l : Breaches) : List Gap := l.filterMap gap?

/-- Whether nothing is reported as missing. -/
def NoGap (l : Breaches) : Prop := ∀ b ∈ l, gap? b = none

variable {c : Context} {type : EntityType} {l l' : Breaches}

theorem gaps_append : gaps (l ++ l') = gaps l ++ gaps l' := List.filterMap_append

theorem gaps_flatMap {α : Type} (items : List α) (f : α → Breaches) :
    gaps (items.flatMap f) = items.flatMap fun a => gaps (f a) := List.filterMap_flatMap

theorem NoGap.gaps (h : NoGap l) : gaps l = [] := by
  rw [Breaches.gaps, List.filterMap_eq_nil_iff]
  exact h

@[simp] theorem noGap_nil : NoGap [] := List.forall_mem_nil _

@[simp] theorem noGap_append : NoGap (l ++ l') ↔ NoGap l ∧ NoGap l' := List.forall_mem_append

@[simp] theorem noGap_breachIf {bad : Prop} [Decidable bad] {cause : Breach} :
    NoGap (c.breachIf bad type cause) ↔ bad → gap? ⟨type, c.place, cause⟩ = none := by
  unfold Context.breachIf
  split <;> simp_all [NoGap]

theorem noGap_flatMap {α : Type} {items : List α} {f : α → Breaches}
    (h : ∀ a ∈ items, NoGap (f a)) : NoGap (items.flatMap f) := by
  intro b hb
  obtain ⟨a, ha, hb⟩ := List.mem_flatMap.1 hb
  exact h a ha b hb

/-- A blank ID is what an element lacks. -/
theorem gaps_require (h : type.isElement = true) (value : String) :
    gaps (c.require type "ID" value) =
      if Text.isBlank value then [⟨type, c.place, .id⟩] else [] := by
  unfold Context.require Context.breachIf
  split <;> simp [gaps, gap?, h, GapKind.ofText]

end Breaches

open Breaches (gaps gaps_append gaps_flatMap gaps_require NoGap noGap_flatMap noGap_breachIf)

section Own

variable (c : Context)

theorem Vertex.gaps_shapeBreaches {type : EntityType} (h : type.isElement = true) (v : Vertex) :
    gaps (v.shapeBreaches c type) =
      if Text.isBlank v.id then [⟨type, c.place, .id⟩] else [] := by
  have hrest : NoGap (c.breachIf (v.type.isKnown = false) type (.unknownVertexType v.type.text)) :=
    noGap_breachIf.2 fun _ => rfl
  rw [shapeBreaches, gaps_append, gaps_require h, hrest.gaps, List.append_nil]

theorem Vertex.noGap_tagBreaches (type : EntityType) (expected : VertexType) (v : Vertex) :
    NoGap (v.tagBreaches c type expected) := noGap_breachIf.2 fun _ => rfl

theorem Pseudostate.gaps_breaches (p : Pseudostate) :
    gaps (p.breaches c) = if Text.isBlank p.id then [⟨.pseudostate, c.place, .id⟩] else [] := by
  have hkind : NoGap (p.kindBreaches c) := by
    unfold kindBreaches
    split
    · cases c.region <;> simp [Breaches.gap?]
    · simp [Breaches.gap?]
  rw [breaches, gaps_append, gaps_append, Vertex.gaps_shapeBreaches c rfl, hkind.gaps,
    (Vertex.noGap_tagBreaches c _ _ _).gaps, List.append_nil, List.append_nil]

theorem RegionVertex.gaps_breaches (v : RegionVertex) :
    gaps (v.breaches c) = if Text.isBlank v.id then [⟨v.element.type, c.place, .id⟩] else [] := by
  cases v with
  | vertex v => exact Vertex.gaps_shapeBreaches c rfl v
  | pseudostate p => exact Pseudostate.gaps_breaches c p
  | finalState f =>
    rw [breaches, FinalState.breaches, gaps_append, Vertex.gaps_shapeBreaches c rfl,
      (Vertex.noGap_tagBreaches c _ _ _).gaps, List.append_nil]
    rfl

theorem Pseudostate.gaps_pointBreaches (side : PointSide) (p : Pseudostate) :
    gaps (p.pointBreaches c side) =
      if Text.isBlank p.id then [⟨.pseudostate, c.place, .id⟩] else [] := by
  have hkind : NoGap (if p.kind.isKnown then
      c.breachIf (p.kind ≠ side.kind) .pseudostate (.wrongPointKind side p.kind)
    else c.breachIf True .pseudostate (.unknownPseudostateKind p.kind.text)) := by
    split <;> simp [Breaches.gap?]
  rw [pointBreaches, gaps_append, gaps_require rfl, hkind.gaps, List.append_nil]

/-- What conditions, actions and triggers lack is not a gap of an element. -/
theorem gaps_require_of_not_element {type : EntityType} (h : type.isElement = false)
    (field value : String) : gaps (c.require type field value) = [] := by
  unfold Context.require Context.breachIf
  split <;> simp [gaps, Breaches.gap?, h]

theorem Constraint.gaps_breaches (x : Constraint) : gaps (x.breaches c) = [] := by
  rw [breaches, gaps_append, gaps_require_of_not_element c rfl, gaps_require_of_not_element c rfl,
    List.append_nil]

theorem Behavior.gaps_breaches (x : Behavior) : gaps (x.breaches c) = [] := by
  rw [breaches, gaps_append, gaps_require_of_not_element c rfl, gaps_require_of_not_element c rfl,
    List.append_nil]

theorem Trigger.gaps_breaches (x : Trigger) : gaps (x.breaches c) = [] := by
  rw [breaches, gaps_append, gaps_require_of_not_element c rfl, gaps_require_of_not_element c rfl,
    List.append_nil]

theorem State.noGap_compositionBreaches (s : State) : NoGap (s.compositionBreaches c) := by
  simp [compositionBreaches, Breaches.gap?]

theorem State.noGap_connectionBreaches (s : State) : NoGap (s.connectionBreaches c) := by
  unfold connectionBreaches
  split
  · refine noGap_flatMap fun x _ => noGap_flatMap fun side _ => noGap_flatMap fun p _ => ?_
    exact noGap_breachIf.2 fun _ => rfl
  · exact Breaches.noGap_nil

theorem State.gaps_submachineBreaches (s : State) :
    gaps (s.submachineBreaches c) =
      if s.isSubmachineState ∧ s.submachine.isNone then [⟨.state, c.place, .submachine⟩]
      else [] := by
  unfold submachineBreaches
  cases hflag : s.isSubmachineState with
  | false =>
    have hplain : NoGap (s.plainBreaches c) := by
      unfold plainBreaches
      cases s.submachine <;> simp [Breaches.gap?]
    simpa using hplain.gaps
  | true =>
    have hrest : NoGap (c.breachIf (s.regions.length ≠ 0) .state (.submachineWithRegions s.id)
        ++ c.breachIf s.isComposite .state (.submachineComposite s.id)) := by
      simp [Breaches.gap?]
    cases hsub : s.submachine with
    | none =>
      rw [if_pos rfl, standInBreaches, List.append_assoc, gaps_append, hrest.gaps, hsub]
      simp [Context.breachIf, gaps, Breaches.gap?]
    | some m =>
      rw [if_pos rfl, standInBreaches, List.append_assoc, gaps_append, hrest.gaps, hsub]
      have hother : NoGap (c.breachIf
          (¬ Text.isBlank m.id ∧ c.machine.map (·.id) = some m.id) .state
          (.submachineEnclosing s.id m.id)) := noGap_breachIf.2 fun _ => rfl
      simpa using hother.gaps

theorem Region.noGap_multiplicityBreaches (r : Region) : NoGap (r.multiplicityBreaches c) := by
  unfold multiplicityBreaches
  split <;> simp [Breaches.gap?]

theorem Region.noGap_initialBreaches (r : Region) : NoGap (r.initialBreaches c) := by
  refine noGap_flatMap ?_
  intro id _
  dsimp only
  split <;> simp [Breaches.gap?]

theorem Transition.noGap_scopeBreaches (r : Region) (t : Transition) :
    NoGap (t.scopeBreaches c r) := by
  have hends (side : TransitionEnd) : NoGap (t.endBreaches c r side) := by
    unfold endBreaches
    split <;> simp [Breaches.gap?]
  have hsource : NoGap (t.sourceBreaches c r) := by
    unfold sourceBreaches
    split <;> simp [Breaches.gap?]
  exact Breaches.noGap_append.2 ⟨noGap_flatMap fun side _ => hends side, hsource⟩

theorem Transition.gaps_breaches (t : Transition) :
    gaps (t.breaches c) =
      (if Text.isBlank t.id then [⟨.transition, c.place, .id⟩] else []) ++
        TransitionEnd.all.flatMap fun side =>
          if (t.atEnd side).isNone then [⟨.transition, c.place, .field side.field⟩] else [] := by
  have hends (side : TransitionEnd) :
      gaps (c.breachIf (t.atEnd side).isNone .transition (.noEnd side t.id)) =
        if (t.atEnd side).isNone then [⟨.transition, c.place, .field side.field⟩] else [] := by
    unfold Context.breachIf
    split <;> simp [gaps, Breaches.gap?]
  have hkind : NoGap (c.breachIf (t.kind.isKnown = false) .transition
      (.unknownTransitionKind t.kind.text)) := noGap_breachIf.2 fun _ => rfl
  have hinternal : NoGap (t.internalBreaches c) := by
    unfold internalBreaches
    split <;> simp [Breaches.gap?]
  have hguard : gaps (t.guard.toList.flatMap (·.breaches (c.field "Guard"))) = [] := by
    simp [gaps_flatMap, Constraint.gaps_breaches]
  have heffect : gaps (t.effect.toList.flatMap (·.breaches (c.field "Effect"))) = [] := by
    simp [gaps_flatMap, Behavior.gaps_breaches]
  have htriggers :
      gaps (t.triggers.zipIdx.flatMap fun x => x.1.breaches (c.item "Triggers" x.2)) = [] := by
    simp [gaps_flatMap, Trigger.gaps_breaches]
  rw [breaches]
  simp only [gaps_append, hkind.gaps, hinternal.gaps, hguard, heffect, htriggers,
    List.append_nil]
  rw [gaps_require rfl, gaps_flatMap]
  simp only [hends]

end Own

end Statechart
