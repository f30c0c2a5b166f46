import Statechart.Model.Build
import Statechart.Proofs.Location.Rules
import Statechart.Proofs.Survey.Order
import Statechart.Proofs.Survey.Tree

/-! Models assembled step by step. Whatever the order of the steps, the flags of a state agree with
what it holds, and the vertices of a region list its states. So the rules find nothing wrong with
either, unless a state got both regions and a machine to stand for. -/

namespace Statechart

/-! ### States -/

/-- A new state after some steps, in any order. -/
inductive State.Assembled : State → Prop where
  | simple (id name : String) : Assembled (.simple id name)
  | addRegion {s : State} (h : s.Assembled) (r : Region) : Assembled (s.addRegion r)
  | setSubmachine {s : State} (h : s.Assembled) (m : StateMachine) : Assembled (s.setSubmachine m)
  | addConnection {s : State} (h : s.Assembled) (c : ConnectionPointReference) :
    Assembled (s.addConnection c)
  | setEntry {s : State} (h : s.Assembled) (b : Behavior) : Assembled (s.setEntry b)
  | setExit {s : State} (h : s.Assembled) (b : Behavior) : Assembled (s.setExit b)
  | setDoActivity {s : State} (h : s.Assembled) (b : Behavior) : Assembled (s.setDoActivity b)

/-- The flags of a state say what it holds. -/
structure State.Consistent (s : State) : Prop where
  composite : s.isComposite = true ↔ s.regions ≠ []
  orthogonal : s.isOrthogonal = true ↔ 2 ≤ s.regions.length
  simple : s.isSimple = true ↔ s.regions = [] ∧ s.submachine = none
  submachineState : s.isSubmachineState = true ↔ s.submachine.isSome = true

namespace State

variable {s : State} {c : Context}

theorem consistent_simple (id name : String) : (simple id name).Consistent :=
  ⟨by simp [simple], by simp [simple], by simp [simple], by simp [simple]⟩

theorem Consistent.addRegion (h : s.Consistent) (r : Region) : (s.addRegion r).Consistent :=
  ⟨by simp [State.addRegion], by simp [State.addRegion], by simp [State.addRegion],
    h.submachineState⟩

theorem Consistent.setSubmachine (h : s.Consistent) (m : StateMachine) :
    (s.setSubmachine m).Consistent :=
  ⟨h.composite, h.orthogonal, by simp [State.setSubmachine], by simp [State.setSubmachine]⟩

/-- The other steps touch neither the flags nor what they speak of. -/
theorem Assembled.consistent (h : s.Assembled) : s.Consistent := by
  induction h with
  | simple id name => exact consistent_simple id name
  | addRegion _ r ih => exact ih.addRegion r
  | setSubmachine _ m ih => exact ih.setSubmachine m
  | addConnection | setEntry | setExit | setDoActivity =>
    rename_i ih
    exact ⟨ih.composite, ih.orthogonal, ih.simple, ih.submachineState⟩

theorem Consistent.compositionBreaches (h : s.Consistent) (c : Context) :
    s.compositionBreaches c = [] := by
  simp only [State.compositionBreaches, List.append_eq_nil_iff, Context.breachIf_eq_nil,
    h.composite, h.simple, h.orthogonal]
  cases s.regions with
  | nil => simp
  | cons r rest => cases rest <;> simp

/-- The fields that say what a state is made of. -/
def compositionFields : List String := ["IsComposite", "IsOrthogonal", "Regions"]

/-- Whether a breach is of the state that the context is about, on one of these fields. -/
def isCompositionBreach (c : Context) (d : Located Breach) : Bool :=
  d.type = .state ∧ d.place = c.place ∧ d.cause.field ∈ compositionFields

theorem filter_eq_nil_of_type {l : Breaches} (h : ∀ d ∈ l, d.type ≠ .state) :
    l.filter (isCompositionBreach c) = [] := by
  rw [List.filter_eq_nil_iff]
  intro d hd
  simp [isCompositionBreach, h d hd]

theorem filter_eq_nil_of_place {l : Breaches} (h : ∀ d ∈ l, d.place ≠ c.place) :
    l.filter (isCompositionBreach c) = [] := by
  rw [List.filter_eq_nil_iff]
  intro d hd
  simp [isCompositionBreach, h d hd]

theorem filter_breachIf (c : Context) (bad : Prop) [Decidable bad] (cause : Breach) :
    (c.breachIf bad .state cause).filter (isCompositionBreach c) =
      if cause.field ∈ compositionFields then c.breachIf bad .state cause else [] := by
  unfold Context.breachIf
  by_cases hfield : cause.field ∈ compositionFields <;> split <;> simp [isCompositionBreach, hfield]

end State

/-- What is found at or below a part is not found at its owner. -/
theorem Element.place_ne_of_mem_breaches {e : Element} {c : Context} {name : String} {i : ℕ}
    {d : Located Breach} (h : d ∈ e.breaches (c.item name i)) : d.place ≠ c.place := by
  obtain ⟨l, y, -, hplace, -⟩ := e.locates_breaches _ d h
  rw [hplace]
  simp [Context.item]

theorem Element.place_ne_of_mem_members {α : Type} {f : α → Element} {l : List α}
    {c : Context} {name : String} {d : Located Breach}
    (h : d ∈ l.zipIdx.flatMap fun x => (f x.1).breaches (c.item name x.2)) :
    d.place ≠ c.place := by
  obtain ⟨x, -, hd⟩ := List.mem_flatMap.1 h
  exact place_ne_of_mem_breaches hd

namespace State

variable {s : State} {c : Context} {d : Located Breach}

theorem type_of_mem_actionBreaches (h : d ∈ s.actionBreaches c) : d.type = .behavior := by
  simp only [actionBreaches, List.mem_append, List.mem_flatMap] at h
  rcases h with (⟨b, -, h⟩ | ⟨b, -, h⟩) | ⟨b, -, h⟩ <;> exact (b.areAt_breaches _ d h).2

theorem type_of_mem_connectionBreaches (h : d ∈ s.connectionBreaches c) :
    d.type = .connectionPointReference := by
  unfold connectionBreaches at h
  split at h
  · next m _ _ =>
    obtain ⟨x, -, h⟩ := List.mem_flatMap.1 h
    obtain ⟨side, -, h⟩ := List.mem_flatMap.1 h
    exact (areAt_undeclaredPoints _ m x.1 side d h).2
  · cases h

/-- Only the rules for composition and for submachines speak of these fields. -/
theorem filter_isCompositionBreach (c : Context) (s : State) :
    (s.breaches c).filter (isCompositionBreach c) =
      (s.compositionBreaches c ++ s.submachineBreaches c).filter (isCompositionBreach c) := by
  have hshape : (s.shapeBreaches c .state ++ s.tagBreaches c .state .state).filter
      (isCompositionBreach c) = [] := by
    simp [Vertex.shapeBreaches, Vertex.tagBreaches, Context.require, filter_breachIf, Breach.field,
      compositionFields]
  have hactions : (s.actionBreaches c).filter (isCompositionBreach c) = [] :=
    filter_eq_nil_of_type fun d hd => by
      rw [type_of_mem_actionBreaches hd]
      decide
  have hregions : (Region.listBreaches c s.regions 0).filter (isCompositionBreach c) = [] :=
    filter_eq_nil_of_place fun d hd => by
      rw [Region.listBreaches_eq_flatMap] at hd
      exact Element.place_ne_of_mem_members (f := .region) hd
  have hconnections : (s.connections.zipIdx.flatMap fun x =>
      x.1.breaches (c.item "Connections" x.2)).filter (isCompositionBreach c) = [] :=
    filter_eq_nil_of_place fun d hd =>
      Element.place_ne_of_mem_members (f := .connectionPointReference) hd
  have hpoints : (s.connectionBreaches c).filter (isCompositionBreach c) = [] :=
    filter_eq_nil_of_type fun d hd => by
      rw [type_of_mem_connectionBreaches hd]
      decide
  rw [breaches_eq]
  simp only [List.filter_append] at hshape ⊢
  rw [hshape, hactions, hregions, hconnections, hpoints]
  simp

/-- What the rules say of the composition of a state whose flags say what it holds. -/
theorem Consistent.filter_breaches (h : s.Consistent) (c : Context) :
    (s.breaches c).filter (isCompositionBreach c) =
      if s.regions ≠ [] ∧ s.submachine.isSome then
        [⟨.state, c.place, .submachineWithRegions s.id⟩,
          ⟨.state, c.place, .submachineComposite s.id⟩]
      else [] := by
  rw [filter_isCompositionBreach, h.compositionBreaches, List.nil_append]
  unfold submachineBreaches
  simp only [h.submachineState]
  cases hsub : s.submachine with
  | none => simp [plainBreaches, hsub, filter_breachIf, Breach.field, compositionFields]
  | some m =>
    have hcount : s.regions.length ≠ 0 ↔ s.regions ≠ [] := List.length_eq_zero_iff.not
    simp only [standInBreaches, hsub, Option.isSome_some, if_true, List.filter_append,
      filter_breachIf, Breach.field, compositionFields, hcount, h.composite, and_true]
    by_cases hregions : s.regions = [] <;> simp [Context.breachIf, hregions]

end State

/-! ### Regions -/

/-- A new region after some steps, in any order. -/
inductive Region.Assembled : Region → Prop where
  | new (id name : String) : Assembled { id, name }
  | addState {r : Region} (h : r.Assembled) (s : State) : Assembled (r.addState s)
  | addVertex {r : Region} (h : r.Assembled) (v : RegionVertex) : Assembled (r.addVertex v)
  | addTransition {r : Region} (h : r.Assembled) (t : Transition) : Assembled (r.addTransition t)

/-- The shape of each state stands among the vertices. -/
def Region.ListsStates (r : Region) : Prop := ∀ s ∈ r.states, .vertex s.toVertex ∈ r.vertices

namespace Region

variable {r : Region} {c : Context} {d : Located Breach}

theorem ListsStates.addState (h : r.ListsStates) (s : State) : (r.addState s).ListsStates := by
  intro t ht
  rcases List.mem_append.1 ht with ht | ht
  · exact List.mem_append_left _ (h t ht)
  · obtain rfl := List.mem_singleton.1 ht
    exact List.mem_append_right _ (.head _)

theorem ListsStates.addVertex (h : r.ListsStates) (v : RegionVertex) :
    (r.addVertex v).ListsStates :=
  fun s hs => List.mem_append_left _ (h s hs)

theorem Assembled.listsStates (h : r.Assembled) : r.ListsStates := by
  induction h with
  | new id name => exact fun s hs => absurd hs List.not_mem_nil
  | addState _ s ih => exact ih.addState s
  | addVertex _ v ih => exact ih.addVertex v
  | addTransition _ t ih => exact ih

theorem ListsStates.listingBreaches (h : r.ListsStates) {s : State} (hs : s ∈ r.states)
    (c : Context) : r.listingBreaches c s = [] := by
  have hsome : (r.vertex? s.id).isSome := List.find?_isSome.2 ⟨_, h s hs, decide_eq_true rfl⟩
  rw [Region.listingBreaches, Context.breachIf_eq_nil]
  rintro ⟨-, hnone⟩
  rw [Option.isNone_iff_eq_none] at hnone
  rw [hnone] at hsome
  cases hsome

/-- The rules for multiplicities and for initial pseudostates speak of other things. -/
theorem cause_ne_of_mem {state region : String}
    (hd : d ∈ r.multiplicityBreaches c ++ r.initialBreaches c) :
    d.cause ≠ .stateNotListed state region := by
  rcases List.mem_append.1 hd with hd | hd
  · rcases List.mem_append.1 hd with hd | hd
    · simp [(Context.mem_breachIf.1 hd).2]
    · split at hd
      · obtain ⟨kind, -, hd⟩ := List.mem_flatMap.1 hd
        simp [(Context.mem_breachIf.1 hd).2]
      · cases hd
  · obtain ⟨id, -, hd⟩ := List.mem_flatMap.1 hd
    split at hd
    · cases hd
    · rcases List.mem_append.1 hd with hd | hd <;>
        simp [(Context.mem_breachIf.1 hd).2]

theorem ListsStates.cause_ne (h : r.ListsStates) (hd : d ∈ r.breaches c)
    (hplace : d.place = c.place) (state region : String) :
    d.cause ≠ .stateNotListed state region := by
  have hbelow {name : String} {i : ℕ} (hd : d.place = (c.item name i).place) : False := by
    rw [hplace] at hd
    simp [Context.item] at hd
  have hin {e : Element} {name : String} {i : ℕ}
      (hd : d ∈ e.breaches ((c.enterRegion r).item name i)) : False :=
    Element.place_ne_of_mem_breaches hd hplace
  -- of the rules that speak of the region itself only the one for listings could say it
  rw [breaches_eq] at hd
  simp only [List.mem_append] at hd
  rcases hd with ((((hd | hd) | hd) | hd) | hd) | hd
  · simp [(Context.mem_breachIf.1 hd).2]
  · obtain ⟨v, -, hd⟩ := List.mem_flatMap.1 hd
    exact (hbelow (v.1.areAt_breaches _ d hd).1).elim
  · exact cause_ne_of_mem (List.mem_append_left _ hd)
  · rw [stateBreaches_eq_flatMap] at hd
    obtain ⟨s, hs, hd⟩ := List.mem_flatMap.1 hd
    rw [h.listingBreaches (List.fst_mem_of_mem_zipIdx hs), List.nil_append] at hd
    exact (hin (e := .state s.1) hd).elim
  · obtain ⟨t, -, hd⟩ := List.mem_flatMap.1 hd
    rcases List.mem_append.1 hd with hd | hd
    · exact (hin (e := .transition t.1) hd).elim
    · exact (hbelow (Transition.areAt_scopeBreaches _ r t.1 d hd).1).elim
  · exact cause_ne_of_mem (List.mem_append_right _ hd)

end Region

/-! ### Whole models -/

/-- Machines, regions and states that are assembled step by step, as are all that they hold. -/
inductive Element.Fluent : Element → Prop where
  | newMachine (id name : String) : Fluent (.stateMachine { id, name })
  | machineRegion {m : StateMachine} {r : Region} (hm : Fluent (.stateMachine m))
    (hr : Fluent (.region r)) : Fluent (.stateMachine (m.addRegion r))
  | connectionPoint {m : StateMachine} (hm : Fluent (.stateMachine m)) (p : Pseudostate) :
    Fluent (.stateMachine (m.addConnectionPoint p))
  | asMethod {m : StateMachine} (hm : Fluent (.stateMachine m)) : Fluent (.stateMachine m.asMethod)
  | metadata {m : StateMachine} (hm : Fluent (.stateMachine m)) (key : String) (value : Json) :
    Fluent (.stateMachine (m.putMetadata key value))
  /-- The machine is given a number, to be held by several states. -/
  | share {m : StateMachine} (hm : Fluent (.stateMachine m)) (n : ℕ) :
    Fluent (.stateMachine { m with shared := some n })
  | newRegion (id name : String) : Fluent (.region { id, name })
  | state {r : Region} {s : State} (hr : Fluent (.region r)) (hs : Fluent (.state s)) :
    Fluent (.region (r.addState s))
  | vertex {r : Region} (hr : Fluent (.region r)) (v : RegionVertex) :
    Fluent (.region (r.addVertex v))
  | transition {r : Region} (hr : Fluent (.region r)) (t : Transition) :
    Fluent (.region (r.addTransition t))
  | newState (id name : String) : Fluent (.state (.simple id name))
  | stateRegion {s : State} {r : Region} (hs : Fluent (.state s)) (hr : Fluent (.region r)) :
    Fluent (.state (s.addRegion r))
  | submachine {s : State} {m : StateMachine} (hs : Fluent (.state s))
    (hm : Fluent (.stateMachine m)) : Fluent (.state (s.setSubmachine m))
  | connection {s : State} (hs : Fluent (.state s)) (c : ConnectionPointReference) :
    Fluent (.state (s.addConnection c))
  | entry {s : State} (hs : Fluent (.state s)) (b : Behavior) : Fluent (.state (s.setEntry b))
  | exit {s : State} (hs : Fluent (.state s)) (b : Behavior) : Fluent (.state (s.setExit b))
  | doActivity {s : State} (hs : Fluent (.state s)) (b : Behavior) :
    Fluent (.state (s.setDoActivity b))
  /-- Other elements hold nothing that has to be assembled. -/
  | leaf {e : Element} (h : e.type ∉ [EntityType.stateMachine, .region, .state]) : Fluent e

namespace Element.Fluent

variable {e : Element}

theorem assembledState {s : State} (h : Fluent (.state s)) : s.Assembled := by
  generalize he : Element.state s = e at h
  induction h generalizing s with
  | newState id name =>
    cases he
    exact .simple id name
  | stateRegion _ _ ih =>
    cases he
    exact (ih rfl).addRegion _
  | submachine _ _ ih =>
    cases he
    exact (ih rfl).setSubmachine _
  | connection _ c ih =>
    cases he
    exact (ih rfl).addConnection c
  | entry _ b ih =>
    cases he
    exact (ih rfl).setEntry b
  | exit _ b ih =>
    cases he
    exact (ih rfl).setExit b
  | doActivity _ b ih =>
    cases he
    exact (ih rfl).setDoActivity b
  | leaf h =>
    cases he
    exact absurd h (by simp [type])
  | _ => cases he

theorem assembledRegion {r : Region} (h : Fluent (.region r)) : r.Assembled := by
  generalize he : Element.region r = e at h
  induction h generalizing r with
  | newRegion id name =>
    cases he
    exact .new id name
  | state _ _ ih =>
    cases he
    exact (ih rfl).addState _
  | vertex _ v ih =>
    cases he
    exact (ih rfl).addVertex v
  | transition _ t ih =>
    cases he
    exact (ih rfl).addTransition t
  | leaf h =>
    cases he
    exact absurd h (by simp [type])
  | _ => cases he

theorem grow {e' g : Element} (h : ∀ f ∈ e.children, f.Fluent) (hg : g.Fluent)
    (hsub : e'.children ⊆ g :: e.children) : ∀ f ∈ e'.children, f.Fluent := by
  intro f hf
  rcases List.mem_cons.1 (hsub hf) with rfl | hf
  · exact hg
  · exact h f hf

theorem children (h : e.Fluent) : ∀ f ∈ e.children, f.Fluent := by
  induction h with
  | newMachine | newRegion | newState =>
    simp [children_stateMachine, children_region, children_state, State.simple]
  | machineRegion _ hr ih =>
    refine grow ih hr fun f hf => ?_
    grind [children_stateMachine, StateMachine.addRegion]
  | connectionPoint _ p ih =>
    refine grow ih (leaf (e := .pseudostate p) (by simp [type])) fun f hf => ?_
    grind [children_stateMachine, StateMachine.addConnectionPoint]
  | @state r s _ hs ih =>
    -- the step adds two parts, the state and the vertex that lists it
    have hstate : ∀ f ∈ (Element.region { r with states := r.states ++ [s] }).children, f.Fluent :=
      grow ih hs fun f hf => by grind [children_region]
    refine grow hstate (leaf (e := .vertex s.toVertex) (by simp [type])) fun f hf => ?_
    grind [children_region, Region.addState, RegionVertex.element]
  | vertex _ v ih =>
    have hv : v.element.Fluent := leaf (by cases v <;> simp [RegionVertex.element, type])
    refine grow ih hv fun f hf => ?_
    grind [children_region, Region.addVertex]
  | transition _ t ih =>
    refine grow ih (leaf (e := .transition t) (by simp [type])) fun f hf => ?_
    grind [children_region, Region.addTransition]
  | stateRegion _ hr ih =>
    refine grow ih hr fun f hf => ?_
    grind [children_state, State.addRegion]
  | submachine _ hm ih =>
    refine grow ih hm fun f hf => ?_
    grind [children_state, State.setSubmachine]
  | connection _ c ih =>
    refine grow ih (leaf (e := .connectionPointReference c) (by simp [type])) fun f hf => ?_
    grind [children_state, State.addConnection]
  | asMethod _ ih | metadata _ _ _ ih | share _ _ ih => exact ih
  | entry _ _ ih | exit _ _ ih | doActivity _ _ ih => exact ih
  | @leaf e h =>
    intro f hf
    cases e with
    | connectionPointReference c =>
      rw [children_connectionPointReference, ← List.map_append] at hf
      obtain ⟨q, -, rfl⟩ := List.mem_map.1 hf
      exact .leaf (by simp [type])
    | stateMachine | region | state => exact absurd h (by simp [type])
    | _ => cases hf

/-- All that is met in what has been assembled has been assembled. -/
theorem of_mem_tree (h : e.Fluent) (place : Locator) :
    ∀ x ∈ (Encounter.ofRoot e place).tree, x.element.Fluent :=
  Encounter.tree_induction h fun _ _ ih _ hp => ih.children _ (List.mem_map_of_mem hp)

end Element.Fluent

/-- The flags of the state say what it holds, and in any surroundings the rules find nothing wrong
with its composition, unless it holds regions and a machine at once. -/
structure State.Sound (s : State) : Prop where
  consistent : s.Consistent
  composition : ∀ c : Context, (s.breaches c).filter (isCompositionBreach c) =
    if s.regions ≠ [] ∧ s.submachine.isSome then
      [⟨.state, c.place, .submachineWithRegions s.id⟩,
        ⟨.state, c.place, .submachineComposite s.id⟩]
    else []

/-- In no surroundings is it said of the region that it does not list a state. -/
def Region.Sound (r : Region) : Prop :=
  ∀ (c : Context), ∀ d ∈ r.breaches c, d.place = c.place →
    ∀ state region, d.cause ≠ .stateNotListed state region

/-- Assembly step by step, in whatever order, keeps the flags of a state and the vertices of a
region in agreement with what they hold, and so does it throughout a model all of which is assembled
like that. -/
theorem assembled_sound :
    (∀ s : State, s.Assembled → s.Sound) ∧ (∀ r : Region, r.Assembled → r.Sound) ∧
      ∀ m, (Element.stateMachine m).Fluent → ∀ x ∈ (Encounter.ofRoot (.stateMachine m) []).tree,
        (∀ s, x.element = .state s → s.Sound) ∧ ∀ r, x.element = .region r → r.Sound := by
  have state (s : State) (h : s.Assembled) : s.Sound :=
    ⟨h.consistent, h.consistent.filter_breaches⟩
  have region (r : Region) (h : r.Assembled) : r.Sound :=
    fun _ _ hd hplace => h.listsStates.cause_ne hd hplace
  refine ⟨state, region, ?_⟩
  intro m hm x hx
  have hfluent := hm.of_mem_tree [] x hx
  constructor
  · intro s hs
    exact state s (hs ▸ hfluent).assembledState
  · intro r hr
    exact region r (hr ▸ hfluent).assembledRegion

/-- A state that has two regions and also stands for a machine. -/
def hoarder : State :=
  (((State.simple "s" "").addRegion { id := "p" }).setSubmachine { id := "n" }).addRegion
    { id := "q" }

def hoarderRegion : Region := Region.addState { id := "r" } hoarder

def hoarderMachine : StateMachine := StateMachine.addRegion { id := "m" } hoarderRegion

theorem hoarder_sound :
    hoarder.isOrthogonal = true ∧
      (hoarder.breaches {}).filter (State.isCompositionBreach {}) =
        [⟨.state, [], .submachineWithRegions "s"⟩, ⟨.state, [], .submachineComposite "s"⟩] ∧
      hoarderRegion.Sound ∧
      (Element.stateMachine hoarderMachine).Fluent ∧
      ∃ x ∈ (Encounter.ofRoot (.stateMachine hoarderMachine) []).tree,
        x.element = .state hoarder ∧ hoarder.Sound := by
  have hstate : hoarder.Assembled := ((State.Assembled.simple "s" "").addRegion _).setSubmachine _
    |>.addRegion _
  have hregion : hoarderRegion.Assembled := (Region.Assembled.new "r" "").addState _
  have hfluent : (Element.stateMachine hoarderMachine).Fluent :=
    .machineRegion (.newMachine "m" "") (.state (.newRegion "r" "") (.stateRegion (.submachine
      (.stateRegion (.newState "s" "") (.newRegion "p" "")) (.newMachine "n" ""))
      (.newRegion "q" "")))
  obtain ⟨hstates, hregions, hmachines⟩ := assembled_sound
  refine ⟨rfl, (hstates hoarder hstate).composition {}, hregions hoarderRegion hregion, hfluent, ?_⟩
  let root := Encounter.ofRoot (.stateMachine hoarderMachine) []
  let region := root.part ⟨.member, .item "Regions" 0, .region hoarderRegion⟩
  let state := region.part ⟨.member, .item "States" 0, .state hoarder⟩
  have howner : region ∈ root.tree := Encounter.part_mem_tree root.self_mem_tree (.head _)
  have hmem : state ∈ root.tree := Encounter.part_mem_tree howner (.head _)
  exact ⟨state, hmem, rfl, (hmachines hoarderMachine hfluent state hmem).1 hoarder rfl⟩

end Statechart
