import Mathlib
import Statechart.Proofs.Reading.Written

/-! The round trip of models through JSON. What an element was read from holds what its parts were
read from, so every element of a model that was read was read itself. Hence it carries no stray tag
and no number, and writing and reading it once more changes nothing. -/

namespace Statechart

open Json.Record

variable {j : Json}

/-! ### What is read -/

theorem Vertex.not_isStray_of_ofRecord? {fields : j.Record} {v : Vertex}
    (h : ofRecord? fields = some v) : ¬ v.type.IsStray := by
  simp only [ofRecord?, Option.bind_eq_bind, Option.bind_eq_some_iff, Option.pure_def,
    Option.some.injEq] at h
  obtain ⟨id, -, name, -, type, htype, rfl⟩ := h
  obtain ⟨raw, rfl⟩ := exists_of_required_tag htype
  exact VertexType.not_isStray_ofText raw

theorem Vertex.not_isStray_of_ofJson? {v : Vertex} (h : ofJson? j = some v) :
    ¬ v.type.IsStray := by
  obtain ⟨fields, -, hfields⟩ := Option.bind_eq_some_iff.1 h
  exact not_isStray_of_ofRecord? hfields

theorem Pseudostate.not_isStray_of_ofJson? {p : Pseudostate} (h : ofJson? j = some p) :
    ¬ p.type.IsStray ∧ ¬ p.kind.IsStray := by
  simp only [ofJson?, Option.bind_eq_bind, Option.bind_eq_some_iff, Option.pure_def,
    Option.some.injEq] at h
  obtain ⟨fields, -, v, hv, kind, hkind, rfl⟩ := h
  obtain ⟨raw, rfl⟩ := exists_of_required_tag hkind
  exact ⟨Vertex.not_isStray_of_ofRecord? hv, PseudostateKind.not_isStray_ofText raw⟩

theorem FinalState.not_isStray_of_ofJson? {x : FinalState} (h : ofJson? j = some x) :
    ¬ x.type.IsStray := by
  simp only [ofJson?, Option.bind_eq_bind, Option.bind_eq_some_iff, Option.pure_def,
    Option.some.injEq] at h
  obtain ⟨fields, -, v, hv, rfl⟩ := h
  exact Vertex.not_isStray_of_ofRecord? hv

theorem ConnectionPointReference.read_of_ofJson? {c : ConnectionPointReference}
    (h : ofJson? j = some c) :
    ¬ c.type.IsStray ∧ (∀ p ∈ c.entry, ∃ j, Pseudostate.ofJson? j = some p) ∧
      ∀ p ∈ c.exit, ∃ j, Pseudostate.ofJson? j = some p := by
  simp only [ofJson?, Option.bind_eq_bind, Option.bind_eq_some_iff, Option.pure_def,
    Option.some.injEq] at h
  obtain ⟨fields, -, v, hv, entry, hentry, exit, hexit, rfl⟩ := h
  exact ⟨Vertex.not_isStray_of_ofRecord? hv, fun p hp => exists_of_list hentry hp,
    fun p hp => exists_of_list hexit hp⟩

theorem Transition.read_of_ofJson? {t : Transition} (h : ofJson? j = some t) :
    ¬ t.kind.IsStray ∧ (∀ v ∈ t.source, ∃ j, Vertex.ofJson? j = some v) ∧
      ∀ v ∈ t.target, ∃ j, Vertex.ofJson? j = some v := by
  simp only [ofJson?, Option.bind_eq_bind, Option.bind_eq_some_iff, Option.pure_def,
    Option.some.injEq] at h
  obtain ⟨fields, -, id, -, name, -, source, hsource, target, htarget, kind, hkind, guard, -,
    effect, -, triggers, -, rfl⟩ := h
  refine ⟨?_, fun v hv => ?_, fun v hv => ?_⟩
  · rcases exists_of_optional_tag hkind with rfl | ⟨raw, rfl⟩
    · rintro ⟨known, -, hknown⟩
      cases hknown
    · exact TransitionKind.not_isStray_ofText raw
  · obtain rfl := Option.mem_def.1 hv
    exact exists_of_slot hsource
  · obtain rfl := Option.mem_def.1 hv
    exact exists_of_slot htarget

theorem StateMachine.read_of_ofJson? {m : StateMachine} (h : ofJson? j = some m) :
    m.shared = none ∧ (∀ r ∈ m.regions, ∃ j, Region.ofJson? j = some r) ∧
      ∀ p ∈ m.connectionPoints, ∃ j, Pseudostate.ofJson? j = some p := by
  rw [ofJson?] at h
  simp only [Option.bind_eq_bind, Option.bind_eq_some_iff, Option.pure_def, Option.some.injEq] at h
  obtain ⟨fields, -, id, -, name, -, regions, hregions, points, hpoints, isMethod, -, metadata, -,
    rfl⟩ := h
  exact ⟨rfl, fun r hr => exists_of_list hregions hr, fun p hp => exists_of_list hpoints hp⟩

theorem Region.read_of_ofJson? {r : Region} (h : ofJson? j = some r) :
    (∀ s ∈ r.states, ∃ j, State.ofJson? j = some s) ∧
      (∀ v ∈ r.vertices, ∃ j, RegionVertex.ofJson? j = some v) ∧
      ∀ t ∈ r.transitions, ∃ j, Transition.ofJson? j = some t := by
  rw [ofJson?] at h
  simp only [Option.bind_eq_bind, Option.bind_eq_some_iff, Option.pure_def, Option.some.injEq] at h
  obtain ⟨fields, -, id, -, name, -, states, hstates, vertices, hvertices, transitions,
    htransitions, rfl⟩ := h
  exact ⟨fun s hs => exists_of_list hstates hs, fun v hv => exists_of_list hvertices hv,
    fun t ht => exists_of_list htransitions ht⟩

theorem State.read_of_ofJson? {s : State} (h : ofJson? j = some s) :
    ¬ s.type.IsStray ∧ (∀ r ∈ s.regions, ∃ j, Region.ofJson? j = some r) ∧
      (∀ c ∈ s.connections, ∃ j, ConnectionPointReference.ofJson? j = some c) ∧
      ∀ m ∈ s.submachine, ∃ j, StateMachine.ofJson? j = some m := by
  rw [ofJson?] at h
  simp only [Option.bind_eq_bind, Option.bind_eq_some_iff, Option.pure_def, Option.some.injEq] at h
  obtain ⟨fields, -, v, hv, isSimple, -, isComposite, -, isOrthogonal, -, isSubmachineState, -,
    regions, hregions, submachine, hsub, connections, hconnections, entry, -, exit, -, act, -,
    rfl⟩ := h
  refine ⟨Vertex.not_isStray_of_ofRecord? hv, fun r hr => exists_of_list hregions hr,
    fun c hc => exists_of_list hconnections hc, fun m hm => ?_⟩
  obtain rfl := Option.mem_def.1 hm
  exact exists_of_slot hsub

/-! ### Elements that were read -/

namespace Element

/-- The element was read from some value. -/
def IsRead : Element → Prop
  | stateMachine m => ∃ j, StateMachine.ofJson? j = some m
  | region r => ∃ j, Region.ofJson? j = some r
  | vertex v => ∃ j, Vertex.ofJson? j = some v
  | state s => ∃ j, State.ofJson? j = some s
  | pseudostate p => ∃ j, Pseudostate.ofJson? j = some p
  | finalState f => ∃ j, FinalState.ofJson? j = some f
  | transition t => ∃ j, Transition.ofJson? j = some t
  | connectionPointReference c => ∃ j, ConnectionPointReference.ofJson? j = some c

variable {e f : Element}

theorem isRead_regionVertex {v : RegionVertex} (h : RegionVertex.ofJson? j = some v) :
    v.element.IsRead := by
  unfold RegionVertex.ofJson? at h
  split at h
  · obtain ⟨v, hv, rfl⟩ := Option.map_eq_some_iff.1 h
    exact ⟨_, hv⟩
  · obtain ⟨p, hp, rfl⟩ := Option.map_eq_some_iff.1 h
    exact ⟨_, hp⟩
  · obtain ⟨f, hf, rfl⟩ := Option.map_eq_some_iff.1 h
    exact ⟨_, hf⟩
  · cases h

/-- The element itself carries no stray tag and no number. -/
theorem IsRead.own (h : e.IsRead) : e.HasOwnTags ∧ e.definition? = none := by
  cases e with
  | region r => exact ⟨trivial, rfl⟩
  | stateMachine m =>
    obtain ⟨j, h⟩ := h
    exact ⟨trivial, (StateMachine.read_of_ofJson? h).1⟩
  | vertex v =>
    obtain ⟨j, h⟩ := h
    exact ⟨Vertex.not_isStray_of_ofJson? h, rfl⟩
  | state s =>
    obtain ⟨j, h⟩ := h
    exact ⟨(State.read_of_ofJson? h).1, rfl⟩
  | pseudostate p =>
    obtain ⟨j, h⟩ := h
    exact ⟨Pseudostate.not_isStray_of_ofJson? h, rfl⟩
  | finalState x =>
    obtain ⟨j, h⟩ := h
    exact ⟨FinalState.not_isStray_of_ofJson? h, rfl⟩
  | connectionPointReference c =>
    obtain ⟨j, h⟩ := h
    exact ⟨(ConnectionPointReference.read_of_ofJson? h).1, rfl⟩
  | transition t =>
    obtain ⟨j, h⟩ := h
    obtain ⟨hkind, hsource, htarget⟩ := Transition.read_of_ofJson? h
    refine ⟨⟨hkind, fun v hv => ?_, fun v hv => ?_⟩, rfl⟩
    · exact (hsource v hv).elim fun _ => Vertex.not_isStray_of_ofJson?
    · exact (htarget v hv).elim fun _ => Vertex.not_isStray_of_ofJson?

/-- What an element was read from holds what its children were read from. -/
theorem IsRead.child (h : e.IsRead) (hf : f ∈ e.children) : f.IsRead := by
  cases e with
  | stateMachine m =>
    obtain ⟨j, h⟩ := h
    obtain ⟨-, hregions, hpoints⟩ := StateMachine.read_of_ofJson? h
    simp only [children_stateMachine, List.mem_append, List.mem_map] at hf
    obtain ⟨r, hr, rfl⟩ | ⟨p, hp, rfl⟩ := hf
    exacts [hregions r hr, hpoints p hp]
  | region r =>
    obtain ⟨j, h⟩ := h
    obtain ⟨hstates, hvertices, htransitions⟩ := Region.read_of_ofJson? h
    simp only [children_region, List.mem_append, List.mem_map] at hf
    obtain (⟨s, hs, rfl⟩ | ⟨v, hv, rfl⟩) | ⟨t, ht, rfl⟩ := hf
    exacts [hstates s hs, (hvertices v hv).elim fun _ => isRead_regionVertex, htransitions t ht]
  | state s =>
    obtain ⟨j, h⟩ := h
    obtain ⟨-, hregions, hconnections, hsub⟩ := State.read_of_ofJson? h
    simp only [children_state, List.mem_append, List.mem_map, Option.mem_toList] at hf
    obtain (⟨r, hr, rfl⟩ | ⟨c, hc, rfl⟩) | ⟨m, hm, rfl⟩ := hf
    exacts [hregions r hr, hconnections c hc, hsub m hm]
  | connectionPointReference c =>
    obtain ⟨j, h⟩ := h
    obtain ⟨-, hentry, hexit⟩ := ConnectionPointReference.read_of_ofJson? h
    simp only [children_connectionPointReference, List.mem_append, List.mem_map] at hf
    obtain ⟨p, hp, rfl⟩ | ⟨p, hp, rfl⟩ := hf
    exacts [hentry p hp, hexit p hp]
  | _ => cases hf

/-- All that an element holds was read with it. -/
theorem IsRead.leads (h : e.IsRead) {way : List Part} (hway : e.Leads way f) : f.IsRead := by
  induction way generalizing e with
  | nil =>
    obtain rfl : e = f := hway
    exact h
  | cons p way ih => exact ih (h.child (List.mem_map_of_mem hway.1)) hway.2

theorem IsRead.hasTags (h : e.IsRead) : e.HasTags := fun _ _ hway => (h.leads hway).own.1

theorem IsRead.unshared (h : e.IsRead) : e.Unshared := fun _ _ hway => (h.leads hway).own.2

end Element

/-! ### Entities -/

namespace Entity

/-- The name that the entity is read by. -/
def typeName : Entity → String
  | regionVertex _ => "RegionVertex"
  | x => x.type.text

/-- Reads what goes by a name. -/
def ofJson? (name : String) (j : Json) : Option Entity :=
  (readers.lookup name).bind fun read => read j

/-- No tag at or below the element that the entity is or holds is stray. -/
def HasTags (x : Entity) : Prop := ∀ e ∈ x.element?, e.HasTags

def copy : Entity → Entity
  | element e => element e.copy
  | x => x

variable {x : Entity}

theorem ofJson?_toJson (h : x.HasTags) : ofJson? x.typeName x.toJson = some x.copy := by
  cases x with
  | element e =>
    have he := h e rfl
    cases e with
    | stateMachine m =>
      exact congrArg (Option.map fun m => element (.stateMachine m)) (m.ofJson?_toJson he)
    | region r => exact congrArg (Option.map fun r => element (.region r)) (r.ofJson?_toJson he)
    | vertex v =>
      exact congrArg (Option.map fun v => element (.vertex v)) (Vertex.ofJson?_toJson he.own)
    | state s => exact congrArg (Option.map fun s => element (.state s)) (s.ofJson?_toJson he)
    | pseudostate p =>
      exact congrArg (Option.map fun p => element (.pseudostate p))
        (Pseudostate.ofJson?_toJson he.own.1 he.own.2)
    | finalState f =>
      exact congrArg (Option.map fun f => element (.finalState f))
        (FinalState.ofJson?_toJson he.own)
    | transition t =>
      exact congrArg (Option.map fun t => element (.transition t))
        (Transition.ofJson?_toJson he.own.1 he.own.2.1 he.own.2.2)
    | connectionPointReference c =>
      exact congrArg (Option.map fun c => element (.connectionPointReference c))
        he.connectionPointReference
  | regionVertex v =>
    have hv : v.element.HasTags := h _ rfl
    exact congrArg (Option.map regionVertex) hv.regionVertex
  | constraint c => exact congrArg (Option.map constraint) c.ofJson?_toJson
  | behavior b => exact congrArg (Option.map behavior) b.ofJson?_toJson
  | trigger t => exact congrArg (Option.map trigger) t.ofJson?_toJson

theorem isRead_of_ofJson? {name : String} (h : ofJson? name j = some x) :
    x.typeName = name ∧ ∀ e ∈ x.element?, e.IsRead := by
  obtain ⟨read, hread, h⟩ := Option.bind_eq_some_iff.1 h
  have hmem : (name, read) ∈ readers := by
    obtain ⟨l, l', hl, -⟩ := List.lookup_eq_some_iff.1 hread
    rw [hl]
    exact List.mem_append_right _ (.head _)
  simp only [readers, List.mem_cons, Prod.mk.injEq, List.not_mem_nil, or_false] at hmem
  rcases hmem with ⟨rfl, rfl⟩ | ⟨rfl, rfl⟩ | ⟨rfl, rfl⟩ | ⟨rfl, rfl⟩ | ⟨rfl, rfl⟩ | ⟨rfl, rfl⟩ |
    ⟨rfl, rfl⟩ | ⟨rfl, rfl⟩ | ⟨rfl, rfl⟩ | ⟨rfl, rfl⟩ | ⟨rfl, rfl⟩ | ⟨rfl, rfl⟩ <;>
    obtain ⟨y, hy, rfl⟩ := Option.map_eq_some_iff.1 h <;> refine ⟨rfl, ?_⟩ <;> rintro e ⟨⟩
  all_goals first | exact ⟨_, hy⟩ | exact Element.isRead_regionVertex hy

theorem copy_eq_of_isRead (h : ∀ e ∈ x.element?, e.IsRead) : x.copy = x := by
  cases x with
  | element e => exact congrArg element (h e rfl).unshared.copy_eq
  | _ => rfl

/-- The round trip. What is written of an entity without stray tags is read as a copy of it; and
whatever is read, from an object or from an array, has no stray tags and is its own copy, so that
written and read again it comes back as it is. -/
theorem round_trip :
    (∀ x : Entity, x.HasTags → ofJson? x.typeName x.toJson = some x.copy) ∧
    ∀ name j x, ofJson? name j = some x →
      x.typeName = name ∧ x.HasTags ∧ x.copy = x ∧ ofJson? name x.toJson = some x := by
  refine ⟨fun x => ofJson?_toJson, ?_⟩
  intro name j x h
  obtain ⟨rfl, hread⟩ := isRead_of_ofJson? h
  have htags : x.HasTags := fun e he => (hread e he).hasTags
  have hcopy := copy_eq_of_isRead hread
  have hagain := ofJson?_toJson htags
  rw [hcopy] at hagain
  exact ⟨rfl, htags, hcopy, hagain⟩

end Entity

/-- A region whose state has a tag outside its domain and stands for a machine, shared or not. -/
def folder (shared : Option ℕ) : Element :=
  let m : StateMachine := { id := "n", shared }
  .region { id := "r", states := [{ id := "s", type := .unknown "box", submachine := some m }] }

/-- The machine comes back without its number. An array may end before the fields with defaults. -/
theorem folder_round_trip :
    Entity.ofJson? "Region" (folder (some 0)).toJson = some (.element (folder none)) ∧
    ∃ x, Entity.ofJson? "StateMachine" (.arr [.str "m"]) = some x ∧
      Entity.ofJson? "StateMachine" x.toJson = some x := by
  have htags : (Entity.element (folder (some 0))).HasTags := by
    rintro _ ⟨⟩
    exact Element.hasTags_of_tree (by cbv)
  have hcopy : (Entity.element (folder (some 0))).copy = .element (folder none) := by cbv
  have hread : Entity.ofJson? "StateMachine" (.arr [.str "m"]) =
      some (.element (.stateMachine { id := "m" })) := by cbv
  exact ⟨hcopy ▸ Entity.round_trip.1 _ htags, _, hread, (Entity.round_trip.2 _ _ _ hread).2.2.2⟩

end Statechart
