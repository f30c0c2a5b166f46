import Statechart.Proofs.Integrity.Association
import Statechart.Proofs.Likeness.Survey

/-! Transitions the other way round. When the ends of all transitions of a model are exchanged, a
walk comes by the same places and records the same elements, and the same IDs are associated. So the
check of associations reports the same. -/

namespace Statechart

/-! ### Changing all transitions of a model -/

mutual

/-- Changes the transitions of a machine, down to the machines that its states stand for. -/
def StateMachine.mapTransitions (f : Transition → Transition) (m : StateMachine) : StateMachine :=
  match m with
  | { regions, .. } => { m with regions := Region.mapTransitionsList f regions }

def Region.mapTransitions (f : Transition → Transition) (r : Region) : Region :=
  match r with
  | { states, transitions, .. } =>
    { r with
      states := State.mapTransitionsList f states
      transitions := transitions.map f }

def State.mapTransitions (f : Transition → Transition) (s : State) : State :=
  match s with
  | { regions, submachine, .. } =>
    { s with
      regions := Region.mapTransitionsList f regions
      submachine := StateMachine.mapTransitionsSlot f submachine }

def StateMachine.mapTransitionsSlot (f : Transition → Transition) :
    Option StateMachine → Option StateMachine
  | none => none
  | some m => some (m.mapTransitions f)

def Region.mapTransitionsList (f : Transition → Transition) : List Region → List Region
  | [] => []
  | r :: rest => r.mapTransitions f :: Region.mapTransitionsList f rest

def State.mapTransitionsList (f : Transition → Transition) : List State → List State
  | [] => []
  | s :: rest => s.mapTransitions f :: State.mapTransitionsList f rest

end

variable (f : Transition → Transition)

theorem StateMachine.mapTransitionsSlot_eq_map (m : Option StateMachine) :
    mapTransitionsSlot f m = m.map (·.mapTransitions f) := by
  cases m <;> simp [mapTransitionsSlot]

theorem Region.mapTransitionsList_eq_map (l : List Region) :
    mapTransitionsList f l = l.map (·.mapTransitions f) := by
  induction l with
  | nil => simp [mapTransitionsList]
  | cons r rest ih => simp [mapTransitionsList, ih]

theorem State.mapTransitionsList_eq_map (l : List State) :
    mapTransitionsList f l = l.map (·.mapTransitions f) := by
  induction l with
  | nil => simp [mapTransitionsList]
  | cons s rest ih => simp [mapTransitionsList, ih]

theorem StateMachine.mapTransitions_eq (m : StateMachine) :
    m.mapTransitions f = { m with regions := m.regions.map (·.mapTransitions f) } := by
  cases m
  simp only [mapTransitions, Region.mapTransitionsList_eq_map]

theorem Region.mapTransitions_eq (r : Region) :
    r.mapTransitions f = { r with
      states := r.states.map (·.mapTransitions f)
      transitions := r.transitions.map f } := by
  cases r
  simp only [mapTransitions, State.mapTransitionsList_eq_map]

theorem State.mapTransitions_eq (s : State) :
    s.mapTransitions f = { s with
      regions := s.regions.map (·.mapTransitions f)
      submachine := s.submachine.map (·.mapTransitions f) } := by
  cases s
  simp only [mapTransitions, Region.mapTransitionsList_eq_map,
    StateMachine.mapTransitionsSlot_eq_map]

def Element.mapTransitions : Element → Element
  | stateMachine m => stateMachine (m.mapTransitions f)
  | region r => region (r.mapTransitions f)
  | state s => state (s.mapTransitions f)
  | transition t => transition (f t)
  | e => e

namespace Likeness

/-- Changing transitions does not show to a walk, if these keep their IDs. -/
def transitions (hf : ∀ t, (f t).id = t.id) : Likeness where
  Rel e e' := e' = e.mapTransitions f
  id_eq := by
    rintro e - rfl
    cases e with
    | stateMachine m => rw [Element.mapTransitions, m.mapTransitions_eq]; rfl
    | region r => rw [Element.mapTransitions, r.mapTransitions_eq]; rfl
    | state s => rw [Element.mapTransitions, s.mapTransitions_eq]; rfl
    | transition t => exact hf t
    | _ => rfl
  type_eq := by
    rintro e - rfl
    cases e <;> rfl
  parts := by
    rintro e - rfl
    have members {α : Type} (role : Role) (field : String) (element : α → Element) (g : α → α)
        (l : List α) (h : ∀ x, element (g x) = (element x).mapTransitions f) :=
      Part.forall₂_ofList (R := fun e e' => e' = e.mapTransitions f)
        (List.forall₂_map_right_iff.2 (List.forall₂_same.2 fun x (_ : x ∈ l) => h x)) role field
    have plain {α : Type} (role : Role) (field : String) (element : α → Element) (l : List α)
        (h : ∀ x, (element x).mapTransitions f = element x) :=
      Part.forall₂_ofList (R := fun e e' => e' = e.mapTransitions f)
        (List.forall₂_same.2 fun x (_ : x ∈ l) => (h x).symm) role field
    cases e with
    | stateMachine m =>
      rw [Element.mapTransitions, m.mapTransitions_eq]
      exact List.rel_append (members _ _ Element.region _ _ fun _ => rfl)
        (plain _ _ Element.pseudostate _ fun _ => rfl)
    | region r =>
      rw [Element.mapTransitions, r.mapTransitions_eq]
      exact List.rel_append (List.rel_append (members _ _ Element.state _ _ fun _ => rfl)
        (plain _ _ RegionVertex.element _ fun v => by cases v <;> rfl))
        (members _ _ Element.transition _ _ fun _ => rfl)
    | state s =>
      rw [Element.mapTransitions, s.mapTransitions_eq]
      refine List.rel_append (List.rel_append (members _ _ Element.region _ _ fun _ => rfl)
        (plain _ _ Element.connectionPointReference _ fun _ => rfl)) ?_
      cases s.submachine with
      | none => exact .nil
      | some m => exact .cons ⟨rfl, rfl, rfl⟩ .nil
    | connectionPointReference c =>
      exact List.rel_append (plain _ _ Element.pseudostate _ fun _ => rfl)
        (plain _ _ Element.pseudostate _ fun _ => rfl)
    | _ => exact .nil
  vertex := by
    rintro v - rfl
    rfl
  pseudostate := by
    rintro q - rfl
    rfl
  state := by
    rintro s - rfl
    exact ⟨_, rfl, by rw [s.mapTransitions_eq]⟩

end Likeness

variable {f}

theorem Element.sameInstances_mapTransitions (hf : ∀ t, (f t).id = t.id) (e : Element)
    (place : Locator) : e.SameInstances (e.mapTransitions f) place := by
  refine Likeness.sameInstances_of_definition? (L := .transitions f hf) place ?_ rfl
  rintro e - rfl
  cases e with
  | stateMachine m => rw [mapTransitions, m.mapTransitions_eq]; rfl
  | _ => rfl

/-! ### Exchanging the ends -/

/-- The transition the other way round. -/
def Transition.reverse (t : Transition) : Transition :=
  { t with source := t.target, target := t.source }

def Element.reverseTransitions : Element → Element := mapTransitions Transition.reverse

/-- Exchanging the ends of transitions does not show to a walk. -/
def Likeness.reversal : Likeness := .transitions Transition.reverse fun _ => rfl

/-- The reversed element associates the same IDs the other way round, or the same way. -/
theorem Encounter.associates_reverse {x x' : Encounter} (h : Likeness.reversal.Alike x x')
    (a b : String) :
    x'.Associates a b ∨ x'.Associates b a ↔ x.Associates a b ∨ x.Associates b a := by
  have hx : x'.element = x.element.reverseTransitions := h.element
  unfold Associates
  rw [hx]
  cases x.element with
  | transition t =>
    simp only [Element.reverseTransitions, Element.mapTransitions, Transition.sourceId?,
      Transition.targetId?, Transition.reverse]
    tauto
  | _ => rfl

theorem Likeness.SurveyAlike.misreference {L : Likeness} {s s' : Survey} (h : L.SurveyAlike s s')
    (edge : String × String) : s'.misreference edge = s.misreference edge := by
  have hfirst := h.entry? edge.1
  have hsecond := h.entry? edge.2
  unfold Survey.misreference
  generalize s.entry? edge.1 = x, s'.entry? edge.1 = x' at hfirst ⊢
  generalize s.entry? edge.2 = y, s'.entry? edge.2 = y' at hsecond ⊢
  cases hfirst with
  | none => rfl
  | some hx =>
    cases hsecond with
    | none => rfl
    | some hy => simp only [hx.type, hx.place, hy.type]

namespace Element

variable {e : Element} {place : Locator} {a b : String}

theorem sameInstances_reverseTransitions (e : Element) :
    e.SameInstances e.reverseTransitions place :=
  sameInstances_mapTransitions (f := Transition.reverse) (fun _ => rfl) e place

theorem associated_reverseTransitions :
    (∃ z, e.reverseTransitions.Walks place z ∧ (z.Associates a b ∨ z.Associates b a)) ↔
      ∃ z, e.Walks place z ∧ (z.Associates a b ∨ z.Associates b a) := by
  have hsame : e.SameInstances e.reverseTransitions place := e.sameInstances_reverseTransitions
  constructor
  · rintro ⟨z', hz', hab⟩
    obtain ⟨z, hz, halike⟩ := Likeness.exists_walks_of_walks (L := .reversal) rfl hsame hz'
    exact ⟨z, hz, (Encounter.associates_reverse halike a b).1 hab⟩
  · rintro ⟨z, hz, hab⟩
    obtain ⟨z', hz', halike⟩ := Likeness.exists_walks (L := .reversal) rfl hsame hz
    exact ⟨z', hz', (Encounter.associates_reverse halike a b).2 hab⟩

/-- The same pairs are associated, though another one may come first. -/
theorem edges_reverseTransitions_perm (e : Element) (place : Locator) :
    (e.reverseTransitions.survey place).association.edges.Perm
      (e.survey place).association.edges := by
  have hnodup (e : Element) : (e.survey place).association.edges.Nodup :=
    (Walk.reachable_survey e place).nodup_association
  refine (List.perm_ext_iff_of_nodup (hnodup _) (hnodup _)).2 ?_
  rintro ⟨a, b⟩
  rw [mem_association, mem_association, associated_reverseTransitions]

theorem misreferences_reverseTransitions_perm (e : Element) (options : Options) (place : Locator) :
    (e.reverseTransitions.integrityDefects options place).misreferences.Perm
      (e.integrityDefects options place).misreferences := by
  have hsurvey : Likeness.reversal.SurveyAlike (e.survey place)
      (e.reverseTransitions.survey place) :=
    (Likeness.survey rfl e.sameInstances_reverseTransitions).1
  rw [misreferences_integrityDefects, misreferences_integrityDefects, funext hsurvey.misreference]
  exact (e.edges_reverseTransitions_perm place).flatMap_right _

/-- There is one report for each ordered pair of associated IDs under which the first elements are
of types that are not to be joined, whatever the number of elements that associate the two, and it
is located at the first element with the first ID. In particular the direction of transitions does
not matter. -/
theorem misreferences_exact (e : Element) (options : Options) (place : Locator) :
    let reports := (e.integrityDefects options place).misreferences
    (reports.map (·.cause.misreference?)).Nodup ∧
      (∀ d, d ∈ reports ↔
        ∃ a b x y, e.first? place a = some x ∧ e.first? place b = some y ∧
          x.type ∈ EntityType.vertexTypes ∧ y.type ∈ EntityType.frameTypes ∧
          (∃ z, e.Walks place z ∧ (z.Associates a b ∨ z.Associates b a)) ∧
          d = ⟨x.type, x.place, .cannotReference a y.type b⟩) ∧
      (e.reverseTransitions.integrityDefects options place).misreferences.Perm reports := by
  refine ⟨?nodup, ?exact, ?reverse⟩
  case nodup => exact nodup_misreferences e options place
  case exact => exact fun d => mem_misreferences
  case reverse => exact misreferences_reverseTransitions_perm e options place

/-- Two vertices of which one has the ID of the machine, joined by transitions both ways. -/
example :
    let a : Vertex := { id := "a", type := .pseudostate }
    let m : Element := .stateMachine
      { id := "m", regions := [{ id := "r", vertices := [.vertex a], transitions :=
        [.between "t" a { a with id := "m" }, .between "u" { a with id := "m" } a] }] }
    (m.integrityDefects {} []).misreferences =
      [⟨.vertex, [.item "Regions" 0, .item "Vertices" 0],
        .cannotReference "a" .stateMachine "m"⟩] := by
  cbv

end Element

end Statechart
