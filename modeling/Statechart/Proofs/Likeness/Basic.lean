import Mathlib.Data.List.Forall2
import Statechart.Proofs.Survey.Kinds

/-! Elements that a walk cannot tell apart. A likeness relates elements of one type and one ID whose
parts are related in turn, and it keeps the shapes and points that a walk compares. What a walk
meets in like elements it meets at the same places. Which encounters are of one instance is not a
matter of single elements and is compared for two models as a whole. -/

namespace Statechart

structure Likeness where
  Rel : Element → Element → Prop
  id_eq : ∀ {e e'}, Rel e e' → e'.id = e.id
  type_eq : ∀ {e e'}, Rel e e' → e'.type = e.type
  parts : ∀ {e e'}, Rel e e' → List.Forall₂
    (fun p p' => p'.role = p.role ∧ p'.step = p.step ∧ Rel p.element p'.element) e.parts e'.parts
  vertex : ∀ {v e'}, Rel (.vertex v) e' → e' = .vertex v
  pseudostate : ∀ {q e'}, Rel (.pseudostate q) e' → e' = .pseudostate q
  state : ∀ {s e'}, Rel (.state s) e' → ∃ s', e' = .state s' ∧ s'.toVertex = s.toVertex

theorem exists_of_mem_forall₂ {α β : Type} {R : α → β → Prop} {l : List α} {l' : List β}
    (h : List.Forall₂ R l l') {a : α} (ha : a ∈ l) : ∃ b ∈ l', R a b := by
  induction h with
  | nil => cases ha
  | cons hab _ ih =>
    cases ha with
    | head => exact ⟨_, .head _, hab⟩
    | tail _ ha =>
      obtain ⟨b, hb, hR⟩ := ih ha
      exact ⟨b, .tail _ hb, hR⟩

/-- Lists of related members are lists of related parts. -/
theorem Part.forall₂_ofList {α β : Type} {R : Element → Element → Prop} {element : α → Element}
    {element' : β → Element} {l : List α} {l' : List β}
    (h : List.Forall₂ (fun a b => R (element a) (element' b)) l l') (role : Role) (field : String) :
    List.Forall₂ (fun p p' : Part => p'.role = p.role ∧ p'.step = p.step ∧ R p.element p'.element)
      (ofList role field element l) (ofList role field element' l') := by
  unfold ofList
  generalize 0 = n
  induction h generalizing n with
  | nil => exact .nil
  | cons hab _ ih =>
    rw [List.zipIdx_cons, List.zipIdx_cons]
    exact .cons ⟨rfl, rfl, hab⟩ (ih (n + 1))

/-- In the two models the same places hold one instance. -/
def Element.SameInstances (e e' : Element) (place : Locator) : Prop :=
  ∀ x ∈ (Encounter.ofRoot e place).tree, ∀ y ∈ (Encounter.ofRoot e place).tree,
    ∀ x' ∈ (Encounter.ofRoot e' place).tree, ∀ y' ∈ (Encounter.ofRoot e' place).tree,
      x'.place = x.place → y'.place = y.place → (x'.origin = y'.origin ↔ x.origin = y.origin)

namespace Likeness

/-- Like elements refer to the same IDs in the slots that they have apart from their parts. -/
structure KeepsSlots (L : Likeness) : Prop where
  transition : ∀ {t e'}, L.Rel (.transition t) e' → ∃ t', e' = .transition t' ∧
    ∀ side, (t'.atEnd side).map (·.id) = (t.atEnd side).map (·.id)
  state : ∀ {s e'}, L.Rel (.state s) e' → ∃ s', e' = .state s' ∧
    s'.isSubmachineState = s.isSubmachineState ∧ s'.submachine.isNone = s.submachine.isNone

structure PartAlike (L : Likeness) (p p' : Part) : Prop where
  role : p'.role = p.role
  step : p'.step = p.step
  element : L.Rel p.element p'.element

/-- Like elements are met at one place, in one role and below owners of one ID. -/
structure Alike (L : Likeness) (x x' : Encounter) : Prop where
  element : L.Rel x.element x'.element
  place : x'.place = x.place
  owner : x'.owner = x.owner
  role : x'.role = x.role

variable {L : Likeness} {e e' f f' : Element} {x x' y y' : Encounter} {p p' : Part}

/-! ### Elements -/

theorem partsAlike (h : L.Rel e e') : List.Forall₂ L.PartAlike e.parts e'.parts :=
  (L.parts h).imp fun _ _ hp => ⟨hp.1, hp.2.1, hp.2.2⟩

theorem hasId_iff (h : L.Rel e e') : e'.HasId ↔ e.HasId := by
  unfold Element.HasId
  rw [L.id_eq h]

theorem rel_vertex {v : Vertex} (h : L.Rel e (.vertex v)) : e = .vertex v := by
  have htype : e.type = .vertex := (L.type_eq h).symm
  cases e with
  | vertex w => exact (L.vertex h).symm
  | _ => cases htype

theorem rel_pseudostate {q : Pseudostate} (h : L.Rel e (.pseudostate q)) : e = .pseudostate q := by
  have htype : e.type = .pseudostate := (L.type_eq h).symm
  cases e with
  | pseudostate r => exact (L.pseudostate h).symm
  | _ => cases htype

theorem rel_state {s' : State} (h : L.Rel e (.state s')) :
    ∃ s, e = .state s ∧ s'.toVertex = s.toVertex := by
  have htype : e.type = .state := (L.type_eq h).symm
  cases e with
  | state s =>
    obtain ⟨t, ht, hshape⟩ := L.state h
    cases ht
    exact ⟨s, rfl, hshape⟩
  | _ => cases htype

theorem isListingPair_eq (he : L.Rel e e') (hf : L.Rel f f') :
    e'.isListingPair f' = e.isListingPair f := by
  -- one half of the pairs; the other half follows by symmetry
  have half {e e' f f' : Element} {s : State} (he : L.Rel e e') (hf : L.Rel f f')
      (hs : e = .state s) (hv : f = .vertex s.toVertex) : e'.isListingPair f' = true := by
    subst hs hv
    obtain ⟨s', rfl, hshape⟩ := L.state he
    rw [L.vertex hf]
    simp [Element.isListingPair, hshape]
  have half' {e e' f f' : Element} {s' : State} (he : L.Rel e e') (hf : L.Rel f f')
      (hs : e' = .state s') (hv : f' = .vertex s'.toVertex) : e.isListingPair f = true := by
    subst hs hv
    obtain ⟨s, rfl, hshape⟩ := rel_state he
    rw [rel_vertex hf]
    simp [Element.isListingPair, hshape]
  rw [Bool.eq_iff_iff]
  constructor
  · intro h
    rcases Element.isListingPair_types h with ⟨s', hs, hv⟩ | ⟨s', hs, hv⟩
    · exact half' he hf hs hv
    · rw [Element.isListingPair_comm]
      exact half' hf he hs hv
  · intro h
    rcases Element.isListingPair_types h with ⟨s, hs, hv⟩ | ⟨s, hs, hv⟩
    · exact half he hf hs hv
    · rw [Element.isListingPair_comm]
      exact half hf he hs hv

/-! ### Encounters -/

namespace Alike

theorem id (h : L.Alike x x') : x'.id = x.id := L.id_eq h.element

theorem type (h : L.Alike x x') : x'.type = x.type := L.type_eq h.element

theorem knownId? (h : L.Alike x x') : x'.knownId? = x.knownId? := by
  unfold Encounter.knownId?
  rw [h.id]

theorem part (h : L.Alike x x') (hp : L.PartAlike p p') : L.Alike (x.part p) (x'.part p') where
  element := hp.element
  place := by rw [Encounter.part, Encounter.part, h.place, hp.step]
  owner := h.knownId?
  role := hp.role

theorem isListing (hx : L.Alike x x') (hy : L.Alike y y') : x'.isListing y' = x.isListing y := by
  unfold Encounter.isListing
  rw [isListingPair_eq hx.element hy.element, hx.owner, hy.owner]

theorem isSamePoint (hx : L.Alike x x') (hy : L.Alike y y') :
    x'.isSamePoint y' = x.isSamePoint y := by
  rw [Bool.eq_iff_iff, Encounter.isSamePoint_iff, Encounter.isSamePoint_iff, hx.role, hy.role]
  constructor
  · rintro ⟨q, hq, hq', hroles⟩
    exact ⟨q, rel_pseudostate (hq ▸ hx.element), rel_pseudostate (hq' ▸ hy.element), hroles⟩
  · rintro ⟨q, hq, hq', hroles⟩
    exact ⟨q, L.pseudostate (hq ▸ hx.element), L.pseudostate (hq' ▸ hy.element), hroles⟩

end Alike

theorem alike_ofRoot (h : L.Rel e e') (place : Locator) :
    L.Alike (.ofRoot e place) (.ofRoot e' place) :=
  ⟨h, rfl, rfl, rfl⟩

/-! ### Trees -/

theorem exists_partAlike (h : L.Rel e e') (hp : p ∈ e.parts) : ∃ p' ∈ e'.parts, L.PartAlike p p' :=
  exists_of_mem_forall₂ (partsAlike h) hp

theorem exists_alike {place : Locator} (h : L.Rel e e') :
    ∀ x ∈ (Encounter.ofRoot e place).tree, ∃ x' ∈ (Encounter.ofRoot e' place).tree,
      L.Alike x x' := by
  refine Encounter.tree_induction ⟨_, Encounter.self_mem_tree _, alike_ofRoot h place⟩ ?_
  rintro y - ⟨y', hy', hyy'⟩ p hp
  obtain ⟨p', hp', hpp'⟩ := exists_partAlike hyy'.element hp
  exact ⟨y'.part p', Encounter.part_mem_tree hy' hp', hyy'.part hpp'⟩

/-- What is met at one place is alike. -/
theorem alike_of_place_eq {place : Locator} (h : L.Rel e e')
    (hx : x ∈ (Encounter.ofRoot e place).tree) (hx' : x' ∈ (Encounter.ofRoot e' place).tree)
    (hplace : x'.place = x.place) : L.Alike x x' := by
  obtain ⟨x'', hx'', halike⟩ := exists_alike h x hx
  rwa [Encounter.eq_of_place_eq hx' hx'' (hplace.trans halike.place.symm)]

/-- Where like elements are the same definitions, the same places hold one instance. -/
theorem sameInstances_of_definition? (place : Locator)
    (hdef : ∀ {f f'}, L.Rel f f' → f'.definition? = f.definition?) (h : L.Rel e e') :
    e.SameInstances e' place := by
  have horigin : ∀ x ∈ (Encounter.ofRoot e place).tree,
      ∃ x' ∈ (Encounter.ofRoot e' place).tree, L.Alike x x' ∧ x'.origin = x.origin := by
    refine Encounter.tree_induction
      ⟨_, Encounter.self_mem_tree _, alike_ofRoot h place, congrArg (Origin.mk · []) (hdef h)⟩ ?_
    rintro y - ⟨y', hy', hyy', ho⟩ p hp
    obtain ⟨p', hp', hpp'⟩ := exists_partAlike hyy'.element hp
    refine ⟨y'.part p', Encounter.part_mem_tree hy' hp', hyy'.part hpp', ?_⟩
    rw [Encounter.part, Encounter.part, Origin.ofPart, Origin.ofPart, hdef hpp'.element, ho,
      hpp'.step]
  intro x hx y hy x' hx' y' hy' hplace hplace'
  obtain ⟨x'', hx'', hxx'', hox⟩ := horigin x hx
  obtain ⟨y'', hy'', hyy'', hoy⟩ := horigin y hy
  rw [Encounter.eq_of_place_eq hx' hx'' (hplace.trans hxx''.place.symm),
    Encounter.eq_of_place_eq hy' hy'' (hplace'.trans hyy''.place.symm), hox, hoy]

end Likeness

end Statechart
