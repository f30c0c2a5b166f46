import Statechart.Proofs.Graph.Renaming
import Statechart.Proofs.Renaming.Rules
import Statechart.Proofs.Survey.Kinds

/-! The survey of a recast model. A recast changes the elements of a model one by one and keeps what
a survey looks at: the type and the parts of each, which IDs, shapes and points are equal, and which
ends of transitions are set. The places may be moved below a base on the way. The walk over the
recast model then takes the same course, and its survey is the recast survey. -/

namespace Statechart

/-- The second defect is about the same IDs renamed; the place it names lies below the base. -/
def Defect.recast (f : Renaming) (base : Locator) : Defect → Defect
  | noId => noId
  | duplicateId id first place => duplicateId (f id) first (base ++ place)
  | unset field => unset field
  | unknownTarget field target => unknownTarget field (f target)
  | noBackReference source target => noBackReference (f source) (f target)
  | cannotReference source targetType target => cannotReference (f source) targetType (f target)
  | cannotContain owner partType part => cannotContain (f owner) partType (f part)
  | cannotStandFor state machineType machine => cannotStandFor (f state) machineType (f machine)
  | cycle relation nodes => cycle relation (nodes.map f)
  | tooDeep relation id limit path => tooDeep relation (f id) limit (path.map f)

structure Recast where
  ids : Renaming
  base : Locator := []
  element : Element → Element
  shape : Vertex → Vertex
  point : Pseudostate → Pseudostate
  shape_injective : shape.Injective
  point_injective : point.Injective
  id_element : ∀ e, (element e).id = ids e.id
  type_element : ∀ e, (element e).type = e.type
  definition?_element : ∀ e, (element e).definition? = e.definition?
  parts_element : ∀ e, (element e).parts =
    e.parts.map fun p => { p with element := element p.element }
  element_vertex : ∀ v, element (.vertex v) = .vertex (shape v)
  element_pseudostate : ∀ p, element (.pseudostate p) = .pseudostate (point p)
  element_state : ∀ s, ∃ s', element (.state s) = .state s' ∧ s'.toVertex = shape s.toVertex ∧
    s'.isSubmachineState = s.isSubmachineState ∧ s'.submachine.isNone = s.submachine.isNone
  element_transition : ∀ t, ∃ t', element (.transition t) = .transition t' ∧
    ∀ side, (t'.atEnd side).map (·.id) = ((t.atEnd side).map (·.id)).map ids

namespace Recast

variable (T : Recast)

def part (p : Part) : Part := { p with element := T.element p.element }

def encounter (x : Encounter) : Encounter where
  element := T.element x.element
  origin := x.origin
  place := T.base ++ x.place
  owner := x.owner.map T.ids
  role := x.role

def reference (r : Reference) : Reference :=
  { r with target := r.target.map T.ids, place := T.base ++ r.place }

def located : Located Defect → Located Defect := Located.recast T.base (Defect.recast T.ids T.base)

def survey (s : Survey) : Survey where
  entries := s.entries.map T.encounter
  listed := s.listed.map T.ids
  refused := s.refused.map (Prod.map (Option.map T.ids) T.shape)
  references := s.references.map T.reference
  containment := s.containment.map T.ids
  standIn := s.standIn.map T.ids
  association := s.association.map T.ids
  defects := s.defects.map T.located

def recurrence : Recurrence → Recurrence
  | .refusedListing shape => .refusedListing (T.shape shape)
  | .sameElement => .sameElement
  | .samePoint => .samePoint
  | .listing => .listing
  | .duplicate => .duplicate

variable {s : Survey} {x y first : Encounter} {p : Part} {e : Element}

@[simp] theorem id_encounter : (T.encounter x).id = T.ids x.id := T.id_element _

@[simp] theorem type_encounter : (T.encounter x).type = x.type := T.type_element _

/-! ### Elements -/

/-- Only pseudostates are recast to pseudostates. -/
theorem element_eq_pseudostate {q : Pseudostate} :
    T.element e = .pseudostate q ↔ ∃ p, e = .pseudostate p ∧ q = T.point p := by
  constructor
  · intro h
    have htype := T.type_element e
    rw [h] at htype
    cases e with
    | pseudostate p =>
      rw [T.element_pseudostate] at h
      exact ⟨p, rfl, (Element.pseudostate.inj h).symm⟩
    | _ => cases htype
  · rintro ⟨p, rfl, rfl⟩
    exact T.element_pseudostate p

theorem element_eq_vertex {w : Vertex} :
    T.element e = .vertex w ↔ ∃ v, e = .vertex v ∧ w = T.shape v := by
  constructor
  · intro h
    have htype := T.type_element e
    rw [h] at htype
    cases e with
    | vertex v =>
      rw [T.element_vertex] at h
      exact ⟨v, rfl, (Element.vertex.inj h).symm⟩
    | _ => cases htype
  · rintro ⟨v, rfl, rfl⟩
    exact T.element_vertex v

theorem element_eq_state {s' : State} (h : T.element e = .state s') :
    ∃ s, e = .state s ∧ s'.toVertex = T.shape s.toVertex ∧
      s'.isSubmachineState = s.isSubmachineState ∧
      s'.submachine.isNone = s.submachine.isNone := by
  have htype := T.type_element e
  rw [h] at htype
  cases e with
  | state s =>
    obtain ⟨t, ht, hs⟩ := T.element_state s
    cases h.symm.trans ht
    exact ⟨s, rfl, hs⟩
  | _ => cases htype

theorem element_eq_transition {t' : Transition} (h : T.element e = .transition t') :
    ∃ t, e = .transition t ∧
      ∀ side, (t'.atEnd side).map (·.id) = ((t.atEnd side).map (·.id)).map T.ids := by
  have htype := T.type_element e
  rw [h] at htype
  cases e with
  | transition t =>
    obtain ⟨u, hu, ht⟩ := T.element_transition t
    cases h.symm.trans hu
    exact ⟨t, rfl, ht⟩
  | _ => cases htype

theorem isListingPair_element (e f : Element) :
    (T.element e).isListingPair (T.element f) = e.isListingPair f := by
  -- one half of the pairs; the other half follows by symmetry
  have half {e f : Element} {s : State} {v : Vertex} (he : e = .state s) (hf : f = .vertex v) :
      (T.element e).isListingPair (T.element f) = e.isListingPair f := by
    subst he hf
    obtain ⟨s', hs', hshape, -⟩ := T.element_state s
    rw [hs', T.element_vertex]
    simp only [Element.isListingPair, hshape, T.shape_injective.eq_iff]
  rw [Bool.eq_iff_iff]
  constructor
  · intro h
    rcases Element.isListingPair_types h with ⟨s', hs', hv⟩ | ⟨s', hs', hv⟩
    · obtain ⟨s, rfl, -⟩ := T.element_eq_state hs'
      obtain ⟨v, rfl, -⟩ := T.element_eq_vertex.1 hv
      rwa [half rfl rfl] at h
    · obtain ⟨s, rfl, -⟩ := T.element_eq_state hs'
      obtain ⟨v, rfl, -⟩ := T.element_eq_vertex.1 hv
      rw [Element.isListingPair_comm] at h ⊢
      rwa [half rfl rfl] at h
  · intro h
    rcases Element.isListingPair_types h with ⟨s, rfl, rfl⟩ | ⟨s, rfl, rfl⟩
    · rwa [half rfl rfl]
    · rw [Element.isListingPair_comm] at h ⊢
      rwa [half rfl rfl]

/-! ### Encounters -/

theorem knownId?_encounter (x : Encounter) :
    (T.encounter x).knownId? = x.knownId?.map T.ids := by
  unfold Encounter.knownId?
  rw [id_encounter, T.ids.isBlank_apply]
  split <;> rfl

theorem part_encounter (x : Encounter) (p : Part) :
    (T.encounter x).part (T.part p) = T.encounter (x.part p) := by
  have horigin : x.origin.ofPart (T.part p) = x.origin.ofPart p := by
    simp only [Origin.ofPart, part, T.definition?_element]
  unfold Encounter.part
  rw [knownId?_encounter]
  simp [encounter, part, ← horigin]

theorem isSamePoint_encounter (x y : Encounter) :
    (T.encounter x).isSamePoint (T.encounter y) = x.isSamePoint y := by
  rw [Bool.eq_iff_iff, Encounter.isSamePoint_iff, Encounter.isSamePoint_iff]
  constructor
  · rintro ⟨q, hx, hy, hroles⟩
    obtain ⟨p, hp, rfl⟩ := T.element_eq_pseudostate.1 hx
    obtain ⟨p', hp', heq⟩ := T.element_eq_pseudostate.1 hy
    obtain rfl := T.point_injective heq
    exact ⟨p, hp, hp', hroles⟩
  · rintro ⟨p, hx, hy, hroles⟩
    exact ⟨T.point p, T.element_eq_pseudostate.2 ⟨p, hx, rfl⟩,
      T.element_eq_pseudostate.2 ⟨p, hy, rfl⟩, hroles⟩

theorem isListing_encounter (x y : Encounter) :
    (T.encounter x).isListing (T.encounter y) = x.isListing y := by
  have howner : (T.encounter x).owner = (T.encounter y).owner ↔ x.owner = y.owner :=
    (Option.map_injective T.ids.injective).eq_iff
  unfold Encounter.isListing
  simp only [howner]
  congr 1
  exact T.isListingPair_element _ _

/-! ### Steps of the walk -/

theorem lookup_survey (s : Survey) (id : String) :
    Survey.entry? (T.survey s) (T.ids id) = (s.entry? id).map T.encounter := by
  simp only [Survey.entry?, survey, List.find?_map, Function.comp_def, id_encounter,
    Renaming.map_eq_iff]

theorem enters_survey (s : Survey) (x : Encounter) :
    (T.survey s).enters (T.encounter x) = s.enters x := by
  unfold Survey.enters
  rw [knownId?_encounter]
  cases x.knownId? with
  | none => rfl
  | some id => simp [lookup_survey]

theorem report_survey (s : Survey) (x : Encounter) (cause : Defect) :
    (T.survey s).report (T.encounter x) (cause.recast T.ids T.base) =
      T.survey (s.report x cause) := by
  simp [Survey.report, survey, located, Located.recast, encounter, Encounter.type, T.type_element]

theorem refused_survey (s : Survey) (x : Encounter) (v : Vertex) :
    ((T.encounter x).owner, T.shape v) ∈ (T.survey s).refused ↔ (x.owner, v) ∈ s.refused :=
  List.mem_map_of_injective (a := (x.owner, v))
    ((Option.map_injective T.ids.injective).prodMap T.shape_injective)

theorem refusal_survey (s : Survey) (x : Encounter) :
    (T.survey s).refusal (T.encounter x) = T.recurrence (s.refusal x) := by
  by_cases h : ∃ v, x.element = .vertex v
  · obtain ⟨v, hv⟩ := h
    have hv' : (T.encounter x).element = .vertex (T.shape v) :=
      T.element_eq_vertex.2 ⟨v, hv, rfl⟩
    have hrefused := T.refused_survey s x v
    simp only [Survey.refusal, hv, hv']
    by_cases hmem : (x.owner, v) ∈ s.refused
    · rw [if_pos hmem, if_pos (hrefused.2 hmem)]
      rfl
    · rw [if_neg hmem, if_neg (hrefused.not.2 hmem)]
      rfl
  · have hne : ∀ v, x.element ≠ .vertex v := fun v hv => h ⟨v, hv⟩
    have hne' : ∀ w, (T.encounter x).element ≠ .vertex w := by
      intro w hw
      obtain ⟨v, hv, -⟩ := T.element_eq_vertex.1 hw
      exact h ⟨v, hv⟩
    have duplicate {s : Survey} {x : Encounter} (hne : ∀ v, x.element ≠ .vertex v) :
        s.refusal x = .duplicate := by
      unfold Survey.refusal
      split
      · next v hv => exact absurd hv (hne v)
      · rfl
    rw [duplicate hne, duplicate hne']
    rfl

theorem recurrence_survey (s : Survey) (first x : Encounter) :
    (T.survey s).recurrence (T.encounter first) (T.encounter x) =
      T.recurrence (s.recurrence first x) := by
  have horigin : (T.encounter first).origin = (T.encounter x).origin ↔ first.origin = x.origin :=
    .rfl
  have hlisted : (T.encounter x).id ∈ (T.survey s).listed ↔ x.id ∈ s.listed := by
    rw [id_encounter]
    exact List.mem_map_of_injective T.ids.injective
  unfold Survey.recurrence
  simp only [horigin, isSamePoint_encounter, isListing_encounter, hlisted, refusal_survey]
  split
  · rfl
  split
  · rfl
  split
  · rfl
  · rfl

theorem refuse_survey (s : Survey) (x : Encounter) :
    (T.survey s).refuse (T.encounter x) = T.survey (s.refuse x) := by
  by_cases h : ∃ t, x.element = .state t
  · obtain ⟨t, ht⟩ := h
    obtain ⟨t', ht', hshape, -⟩ := T.element_state t
    have hx : (T.encounter x).element = .state t' := by
      rw [encounter, ht, ht']
    unfold Survey.refuse
    rw [ht, hx]
    simp [survey, hshape, encounter]
  · have hne : ∀ t, x.element ≠ .state t := fun t ht => h ⟨t, ht⟩
    have hne' : ∀ t, (T.encounter x).element ≠ .state t := by
      intro t' ht'
      obtain ⟨t, ht, -⟩ := T.element_eq_state ht'
      exact h ⟨t, ht⟩
    have same {s : Survey} {x : Encounter} (hne : ∀ t, x.element ≠ .state t) : s.refuse x = s := by
      unfold Survey.refuse
      split
      · next t ht => exact absurd ht (hne t)
      · rfl
    rw [same hne, same hne']

theorem repeated_survey (s : Survey) (first x : Encounter) :
    (T.survey s).repeated (T.encounter first) (T.encounter x) = T.survey (s.repeated first x) := by
  unfold Survey.repeated
  rw [recurrence_survey]
  cases s.recurrence first x with
  | sameElement => rfl
  | samePoint => rfl
  | listing => simp [recurrence, survey]
  | refusedListing shape =>
    have hinj : Function.Injective (Prod.map (Option.map T.ids) T.shape) :=
      (Option.map_injective T.ids.injective).prodMap T.shape_injective
    simp only [recurrence, survey, List.map_erase hinj]
    rfl
  | duplicate =>
    have hcause : Defect.duplicateId (T.encounter x).id (T.encounter first).type
        (T.encounter first).place =
          Defect.recast T.ids T.base (.duplicateId x.id first.type first.place) := by
      rw [id_encounter, type_encounter]
      rfl
    simp only [recurrence]
    rw [refuse_survey, hcause, report_survey]

theorem meet_survey (s : Survey) (x : Encounter) :
    (T.survey s).meet (T.encounter x) = T.survey (s.meet x) := by
  unfold Survey.meet
  rw [knownId?_encounter]
  cases x.knownId? with
  | none => exact T.report_survey s x .noId
  | some id =>
    simp only [Option.map_some, lookup_survey]
    cases s.entry? id with
    | none => simp [survey]
    | some first => exact T.repeated_survey s first x

theorem refer_survey (s : Survey) (x : Encounter) (field : String) (target : Option String) :
    (T.survey s).refer (T.encounter x) field (target.map T.ids) =
      T.survey (s.refer x field target) := by
  simp [Survey.refer, survey, reference, encounter, Encounter.type, T.type_element]

theorem link_survey (s : Survey) (x : Encounter) (p : Part) :
    (T.survey s).link (T.encounter x) (T.part p) = T.survey (s.link x p) := by
  unfold Survey.link
  rw [part_encounter, knownId?_encounter, knownId?_encounter]
  cases x.knownId? with
  | none => rfl
  | some id =>
    cases (x.part p).knownId? with
    | none => rfl
    | some target =>
      have hrefer := T.refer_survey s x p.step.text (some target)
      have hinsert (g : Digraph) := g.insert_map T.ids.injective id target
      have hboth (g : Digraph) := g.insertBoth_map T.ids.injective id target
      simp only [Option.map_some, part] at hrefer ⊢
      rw [hrefer]
      cases p.role <;> simp [survey, hinsert, hboth]

theorem referEnd_survey (s : Survey) (x : Encounter) {t t' : Transition} {side : TransitionEnd}
    (hend : (t'.atEnd side).map (·.id) = ((t.atEnd side).map (·.id)).map T.ids) :
    (T.survey s).referEnd (T.encounter x) t' side = T.survey (s.referEnd x t side) := by
  unfold Survey.referEnd
  cases hv : t.atEnd side with
  | none =>
    have hv' : t'.atEnd side = none := by simpa [hv] using hend
    rw [hv']
    exact T.refer_survey s x side.field none
  | some v =>
    obtain ⟨v', hv', hid⟩ : ∃ v', t'.atEnd side = some v' ∧ v'.id = T.ids v.id := by
      simpa [hv] using hend
    rw [hv']
    simp only [hid, Renaming.isBlank_apply]
    split
    · rfl
    · exact T.refer_survey s x side.field (some v.id)

theorem settle_transition (s : Survey) {t : Transition} (h : x.element = .transition t) :
    (T.survey s).settle (T.encounter x) = T.survey (s.settle x) := by
  obtain ⟨t', ht', hends⟩ := T.element_transition t
  have hx : (T.encounter x).element = .transition t' := by rw [encounter, h, ht']
  have hsource := hends .source
  have htarget := hends .target
  simp only [Transition.atEnd] at hsource htarget
  unfold Survey.settle
  rw [h, hx]
  simp only [referEnd_survey T _ x (hends _)]
  cases hs : t.source with
  | none =>
    have hs' : t'.source = none := by simpa [hs] using hsource
    rw [hs']
  | some a =>
    obtain ⟨a', hs', ha⟩ : ∃ a', t'.source = some a' ∧ a'.id = T.ids a.id := by
      simpa [hs] using hsource
    rw [hs']
    cases ht : t.target with
    | none =>
      have ht' : t'.target = none := by simpa [ht] using htarget
      rw [ht']
    | some b =>
      obtain ⟨b', ht', hb⟩ : ∃ b', t'.target = some b' ∧ b'.id = T.ids b.id := by
        simpa [ht] using htarget
      rw [ht']
      simp only [ha, hb, Renaming.isBlank_apply]
      split
      · rfl
      · simp only [survey, Digraph.insertBoth_map T.ids.injective]

theorem settle_state (s : Survey) {state : State} (h : x.element = .state state) :
    (T.survey s).settle (T.encounter x) = T.survey (s.settle x) := by
  obtain ⟨state', hstate', -, hflag, hnone⟩ := T.element_state state
  have hx : (T.encounter x).element = .state state' := by rw [encounter, h, hstate']
  unfold Survey.settle
  rw [h, hx]
  simp only [hflag, hnone]
  split
  · exact T.refer_survey s x "Submachine" none
  · rfl

theorem settle_survey (s : Survey) (x : Encounter) :
    (T.survey s).settle (T.encounter x) = T.survey (s.settle x) := by
  by_cases ht : ∃ t, x.element = .transition t
  · exact T.settle_transition s ht.choose_spec
  by_cases hs : ∃ state, x.element = .state state
  · exact T.settle_state s hs.choose_spec
  -- nothing else refers to more than its parts, and a recast keeps the type
  have ht' (t' : Transition) : (T.encounter x).element ≠ .transition t' := by
    intro h
    obtain ⟨t, h, -⟩ := T.element_eq_transition h
    exact ht ⟨t, h⟩
  have hs' (state' : State) (h : (T.encounter x).element = .state state') :
      state'.isSubmachineState = false := by
    obtain ⟨state, h, -⟩ := T.element_eq_state h
    exact absurd ⟨state, h⟩ hs
  rw [Survey.settle_of_not_transition ht' hs',
    Survey.settle_of_not_transition (fun t h => ht ⟨t, h⟩) fun state h => absurd ⟨state, h⟩ hs]

/-- The walk over a recast element is the recast walk. -/
theorem visit_survey (s : Survey) (x : Encounter) :
    (T.survey s).visit (T.encounter x) = T.survey (s.visit x) := by
  induction hn : sizeOf x.element using Nat.strongRecOn generalizing s x with
  | ind n ih =>
    have hparts (l : List Part) (hl : l ⊆ x.element.parts) (s : Survey) :
        (l.map T.part).foldl (fun s p => (s.link (T.encounter x) p).visit ((T.encounter x).part p))
          (T.survey s) = T.survey (l.foldl (fun s p => (s.link x p).visit (x.part p)) s) := by
      induction l generalizing s with
      | nil => rfl
      | cons p l ihl =>
        have hp := hl (.head _)
        have hvisit := ih _ (hn ▸ Element.sizeOf_of_mem_parts hp) (s.link x p) (x.part p) rfl
        rw [List.map_cons, List.foldl_cons, List.foldl_cons, link_survey, part_encounter, hvisit]
        exact ihl (fun q hq => hl (.tail _ hq)) _
    rw [Survey.visit_eq, Survey.visit_eq, enters_survey, meet_survey]
    split
    · have hx : (T.encounter x).element.parts = x.element.parts.map T.part := T.parts_element _
      rw [hx, hparts _ (List.Subset.refl _), settle_survey]
    · rfl

/-- The survey of a recast element, which itself stands below the base. -/
theorem survey_element (e : Element) (place : Locator) :
    (T.element e).survey (T.base ++ place) = T.survey (e.survey place) := by
  have hroot : Encounter.ofRoot (T.element e) (T.base ++ place) =
      T.encounter (.ofRoot e place) := by
    simp only [Encounter.ofRoot, encounter, Origin.ofRoot, T.definition?_element, Option.map_none]
  rw [Element.survey, hroot]
  exact T.visit_survey {} (.ofRoot e place)

end Recast

end Statechart
