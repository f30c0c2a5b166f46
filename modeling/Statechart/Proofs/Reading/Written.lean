import Statechart.Model.Writer
import Statechart.Proofs.Reading.Copy
import Statechart.Proofs.Reading.Fields

/-! What is written can be read again. The text of a tag inside its domain reads as that tag, and
any other text as a tag outside. So the only tags that change are those that hold a text of their
domain as if it were outside. Where an element and all below it have no such tag, reading what was
written of it yields a copy of it. -/

namespace Statechart

/-! ### Tags -/

/-- The tag holds a text of its domain as if that were outside. -/
def VertexType.IsStray (t : VertexType) : Prop :=
  ∃ known : VertexType, known.isKnown = true ∧ t = .unknown known.text

def PseudostateKind.IsStray (t : PseudostateKind) : Prop :=
  ∃ known : PseudostateKind, known.isKnown = true ∧ t = .unknown known.text

def TransitionKind.IsStray (t : TransitionKind) : Prop :=
  ∃ known : TransitionKind, known.isKnown = true ∧ t = .unknown known.text

theorem VertexType.eq_unknown_of_isKnown {t : VertexType} (h : t.isKnown = false) :
    t = .unknown t.text := by
  cases t <;> first | rfl | cases h

theorem PseudostateKind.eq_unknown_of_isKnown {t : PseudostateKind} (h : t.isKnown = false) :
    t = .unknown t.text := by
  cases t <;> first | rfl | cases h

theorem TransitionKind.eq_unknown_of_isKnown {t : TransitionKind} (h : t.isKnown = false) :
    t = .unknown t.text := by
  cases t <;> first | rfl | cases h

theorem VertexType.ofText_text {t : VertexType} (h : ¬ t.IsStray) : ofText t.text = t := by
  cases t with
  | unknown raw =>
    cases hknown : (ofText raw).isKnown with
    | true => exact absurd ⟨ofText raw, hknown, by rw [text_ofText]⟩ h
    | false =>
      have hraw := eq_unknown_of_isKnown hknown
      rwa [text_ofText] at hraw
  | _ => rfl

theorem PseudostateKind.ofText_text {t : PseudostateKind} (h : ¬ t.IsStray) :
    ofText t.text = t := by
  cases t with
  | unknown raw =>
    cases hknown : (ofText raw).isKnown with
    | true => exact absurd ⟨ofText raw, hknown, by rw [text_ofText]⟩ h
    | false =>
      have hraw := eq_unknown_of_isKnown hknown
      rwa [text_ofText] at hraw
  | _ => rfl

theorem TransitionKind.ofText_text {t : TransitionKind} (h : ¬ t.IsStray) : ofText t.text = t := by
  cases t with
  | unknown raw =>
    cases hknown : (ofText raw).isKnown with
    | true => exact absurd ⟨ofText raw, hknown, by rw [text_ofText]⟩ h
    | false =>
      have hraw := eq_unknown_of_isKnown hknown
      rwa [text_ofText] at hraw
  | _ => rfl

/-- A tag that was read is not stray: no known tag has the text of an unknown one. -/
theorem VertexType.not_isStray_ofText (raw : String) : ¬ (ofText raw).IsStray := by
  rintro ⟨known, hknown, h⟩
  have htext : raw = known.text := by rw [← text_ofText raw, h]; rfl
  rw [htext] at h
  cases known <;> first | cases h | cases hknown

theorem PseudostateKind.not_isStray_ofText (raw : String) : ¬ (ofText raw).IsStray := by
  rintro ⟨known, hknown, h⟩
  have htext : raw = known.text := by rw [← text_ofText raw, h]; rfl
  rw [htext] at h
  cases known <;> first | cases h | cases hknown

theorem TransitionKind.not_isStray_ofText (raw : String) : ¬ (ofText raw).IsStray := by
  rintro ⟨known, hknown, h⟩
  have htext : raw = known.text := by rw [← text_ofText raw, h]; rfl
  rw [htext] at h
  cases known <;> first | cases h | cases hknown

theorem VertexType.isStray_iff {t : VertexType} : t.IsStray ↔ ofText t.text ≠ t := by
  constructor
  · intro h hread
    have hnot := not_isStray_ofText t.text
    rw [hread] at hnot
    exact hnot h
  · exact not_imp_comm.1 ofText_text

theorem PseudostateKind.isStray_iff {t : PseudostateKind} : t.IsStray ↔ ofText t.text ≠ t := by
  constructor
  · intro h hread
    have hnot := not_isStray_ofText t.text
    rw [hread] at hnot
    exact hnot h
  · exact not_imp_comm.1 ofText_text

theorem TransitionKind.isStray_iff {t : TransitionKind} : t.IsStray ↔ ofText t.text ≠ t := by
  constructor
  · intro h hread
    have hnot := not_isStray_ofText t.text
    rw [hread] at hnot
    exact hnot h
  · exact not_imp_comm.1 ofText_text

instance (t : VertexType) : Decidable t.IsStray := decidable_of_iff _ VertexType.isStray_iff.symm

instance (t : PseudostateKind) : Decidable t.IsStray :=
  decidable_of_iff _ PseudostateKind.isStray_iff.symm

instance (t : TransitionKind) : Decidable t.IsStray :=
  decidable_of_iff _ TransitionKind.isStray_iff.symm

/-! ### Values -/

open Json.Record

theorem Constraint.ofJson?_toJson (c : Constraint) : ofJson? c.toJson = some c := by
  obtain ⟨fields, hfields, hvalues⟩ := record?_obj (rfl : c.toJson = .obj _)
  simp only [ofJson?, hfields, Option.bind_eq_bind, Option.bind_some, required_eq, optional_eq,
    hvalues]
  rfl

theorem Behavior.ofJson?_toJson (b : Behavior) : ofJson? b.toJson = some b := by
  obtain ⟨fields, hfields, hvalues⟩ := record?_obj (rfl : b.toJson = .obj _)
  simp only [ofJson?, hfields, Option.bind_eq_bind, Option.bind_some, required_eq, optional_eq,
    hvalues]
  rfl

theorem Trigger.ofJson?_toJson (t : Trigger) : ofJson? t.toJson = some t := by
  obtain ⟨fields, hfields, hvalues⟩ := record?_obj (rfl : t.toJson = .obj _)
  simp only [ofJson?, hfields, Option.bind_eq_bind, Option.bind_some, required_eq, hvalues]
  rfl

/-- A shape is read from the fields of an element that has it. -/
theorem Vertex.ofRecord?_toFields {v : Vertex} {j : Json} {fields : j.Record}
    {rest : List (String × Json)} (hvalues : fields.values = v.toFields ++ rest)
    (h : ¬ v.type.IsStray) : ofRecord? fields = some v := by
  simp only [ofRecord?, required_eq, required_tag, optional_eq, hvalues]
  change some { v with type := VertexType.ofText v.type.text } = some v
  rw [VertexType.ofText_text h]

theorem Vertex.ofJson?_toJson {v : Vertex} (h : ¬ v.type.IsStray) : ofJson? v.toJson = some v := by
  obtain ⟨fields, hfields, hvalues⟩ := record?_obj (rfl : v.toJson = .obj _)
  rw [ofJson?, hfields]
  exact ofRecord?_toFields (hvalues.trans (List.append_nil _).symm) h

theorem Pseudostate.ofJson?_toJson {p : Pseudostate} (h : ¬ p.type.IsStray)
    (hkind : ¬ p.kind.IsStray) : ofJson? p.toJson = some p := by
  obtain ⟨fields, hfields, hvalues⟩ := record?_obj (rfl : p.toJson = .obj _)
  simp only [ofJson?, hfields, Option.bind_eq_bind, Option.bind_some,
    Vertex.ofRecord?_toFields hvalues h, required_tag, hvalues]
  change some { p with kind := PseudostateKind.ofText p.kind.text } = some p
  rw [PseudostateKind.ofText_text hkind]

theorem FinalState.ofJson?_toJson {x : FinalState} (h : ¬ x.type.IsStray) :
    ofJson? x.toJson = some x := by
  obtain ⟨fields, hfields, hvalues⟩ := record?_obj (rfl : x.toJson = .obj _)
  simp only [ofJson?, hfields, Option.bind_eq_bind, Option.bind_some,
    Vertex.ofRecord?_toFields (hvalues.trans (List.append_nil _).symm) h]
  rfl

theorem ConnectionPointReference.ofJson?_toJson {c : ConnectionPointReference}
    (h : ¬ c.type.IsStray)
    (hpoints : ∀ side, ∀ p ∈ c.points side, Pseudostate.ofJson? p.toJson = some p) :
    ofJson? c.toJson = some c := by
  obtain ⟨fields, hfields, hvalues⟩ := record?_obj (rfl : c.toJson = .obj _)
  have hentry : fields.list "entry" (fun x => Pseudostate.ofJson? x.1) = some c.entry := by
    rw [list_eq, hvalues]
    exact Json.readList_map_self (hpoints .entry)
  have hexit : fields.list "exit" (fun x => Pseudostate.ofJson? x.1) = some c.exit := by
    rw [list_eq, hvalues]
    exact Json.readList_map_self (hpoints .exit)
  simp only [ofJson?, hfields, Option.bind_eq_bind, Option.bind_some,
    Vertex.ofRecord?_toFields hvalues h, hentry, hexit]
  rfl

theorem RegionVertex.ofJson?_toJson {v : RegionVertex} (h : ¬ v.shape.type.IsStray)
    (hkind : ∀ p, v = .pseudostate p → ¬ p.kind.IsStray) : ofJson? v.toJson = some v := by
  cases v with
  | vertex v => exact congrArg (Option.map vertex) (Vertex.ofJson?_toJson h)
  | pseudostate p =>
    exact congrArg (Option.map pseudostate) (Pseudostate.ofJson?_toJson h (hkind p rfl))
  | finalState f => exact congrArg (Option.map finalState) (FinalState.ofJson?_toJson h)

theorem Transition.ofJson?_toJson {t : Transition} (hkind : ¬ t.kind.IsStray)
    (hsources : ∀ v ∈ t.source, ¬ v.type.IsStray) (htargets : ∀ v ∈ t.target, ¬ v.type.IsStray) :
    ofJson? t.toJson = some t := by
  obtain ⟨fields, hfields, hvalues⟩ := record?_obj (rfl : t.toJson = .obj _)
  have hsource : fields.slot "source" (fun x => Vertex.ofJson? x.1) = some t.source := by
    rw [slot_eq, hvalues]
    exact Json.readSlot_ofOption_self (fun v hv => Vertex.ofJson?_toJson (hsources v hv)) nofun
  have htarget : fields.slot "target" (fun x => Vertex.ofJson? x.1) = some t.target := by
    rw [slot_eq, hvalues]
    exact Json.readSlot_ofOption_self (fun v hv => Vertex.ofJson?_toJson (htargets v hv)) nofun
  have hguard : fields.slot "guard" (fun x => Constraint.ofJson? x.1) = some t.guard := by
    rw [slot_eq, hvalues]
    exact Json.readSlot_ofOption_self (fun c _ => c.ofJson?_toJson) nofun
  have heffect : fields.slot "effect" (fun x => Behavior.ofJson? x.1) = some t.effect := by
    rw [slot_eq, hvalues]
    exact Json.readSlot_ofOption_self (fun b _ => b.ofJson?_toJson) nofun
  have htriggers : fields.list "triggers" (fun x => Trigger.ofJson? x.1) = some t.triggers := by
    rw [list_eq, hvalues]
    exact Json.readList_map_self fun t _ => t.ofJson?_toJson
  simp only [ofJson?, hfields, Option.bind_eq_bind, Option.bind_some, required_eq, optional_eq,
    optional_tag, hvalues, hsource, htarget, hguard, heffect, htriggers]
  change some { t with kind := TransitionKind.ofText t.kind.text } = some t
  rw [TransitionKind.ofText_text hkind]

/-! ### Elements -/

namespace Element

/-- None of the tags that the element itself carries is stray. -/
def HasOwnTags : Element → Prop
  | stateMachine _ | region _ => True
  | vertex v => ¬ v.type.IsStray
  | state s => ¬ s.type.IsStray
  | pseudostate p => ¬ p.type.IsStray ∧ ¬ p.kind.IsStray
  | finalState f => ¬ f.type.IsStray
  | transition t =>
    ¬ t.kind.IsStray ∧ (∀ v ∈ t.source, ¬ v.type.IsStray) ∧ ∀ v ∈ t.target, ¬ v.type.IsStray
  | connectionPointReference c => ¬ c.type.IsStray

instance : DecidablePred HasOwnTags
  | stateMachine _ | region _ => isTrue trivial
  | vertex v => inferInstanceAs (Decidable (¬ v.type.IsStray))
  | state s => inferInstanceAs (Decidable (¬ s.type.IsStray))
  | pseudostate p => inferInstanceAs (Decidable (¬ p.type.IsStray ∧ ¬ p.kind.IsStray))
  | finalState f => inferInstanceAs (Decidable (¬ f.type.IsStray))
  | transition t =>
    inferInstanceAs (Decidable (¬ t.kind.IsStray ∧ (∀ v ∈ t.source, ¬ v.type.IsStray) ∧
      ∀ v ∈ t.target, ¬ v.type.IsStray))
  | connectionPointReference c => inferInstanceAs (Decidable (¬ c.type.IsStray))

/-- No tag at or below the element is stray. -/
def HasTags (e : Element) : Prop := ∀ way f, e.Leads way f → f.HasOwnTags

variable {e f : Element}

theorem hasTags_of_tree
    (h : (Encounter.ofRoot e []).tree.all (fun x => decide x.element.HasOwnTags) = true) :
    e.HasTags :=
  forall_leads_of_tree fun x hx => by simpa using List.all_eq_true.1 h x hx

theorem HasTags.own (h : e.HasTags) : e.HasOwnTags := h [] e rfl

theorem HasTags.child (h : e.HasTags) (hf : f ∈ e.children) : f.HasTags := by
  obtain ⟨p, hp, rfl⟩ := List.mem_map.1 hf
  exact fun way g hg => h (p :: way) g ⟨hp, hg⟩

theorem HasTags.regionVertex {v : RegionVertex} (h : v.element.HasTags) :
    RegionVertex.ofJson? v.toJson = some v := by
  have hown := h.own
  cases v with
  | vertex v => exact RegionVertex.ofJson?_toJson hown nofun
  | finalState x => exact RegionVertex.ofJson?_toJson hown nofun
  | pseudostate p =>
    refine RegionVertex.ofJson?_toJson hown.1 ?_
    rintro _ ⟨⟩
    exact hown.2

theorem HasTags.connectionPointReference {c : ConnectionPointReference}
    (h : (connectionPointReference c).HasTags) :
    ConnectionPointReference.ofJson? c.toJson = some c := by
  have hpoints {p : Pseudostate} (hp : p ∈ c.entry ∨ p ∈ c.exit) :
      Pseudostate.ofJson? p.toJson = some p := by
    have hown := (h.child (f := .pseudostate p)
      (by simpa [children_connectionPointReference] using hp)).own
    exact Pseudostate.ofJson?_toJson hown.1 hown.2
  refine ConnectionPointReference.ofJson?_toJson h.own ?_
  rintro (_ | _) p hp
  exacts [hpoints (.inl hp), hpoints (.inr hp)]

end Element

/-- Notes are written in the order that they are kept in. -/
theorem Metadata.ofFields_entries (m : Metadata) : ofFields m.entries = m := by
  have hfields (l : List (String × Json)) (h : (l.map (·.1)).Pairwise (· < ·)) :
      (ofFields l).entries = l := by
    induction l with
    | nil => rfl
    | cons field l ih =>
      obtain ⟨hlt, h⟩ := List.pairwise_cons.1 h
      change Json.putField field.1 field.2 (ofFields l).entries = field :: l
      rw [ih h]
      cases l with
      | nil => rfl
      | cons next l => exact if_pos (hlt _ (.head _))
  exact eq_of_entries (hfields m.entries m.ascending)

theorem StateMachine.toJson_eq (m : StateMachine) :
    m.toJson = .obj [("id", .str m.id), ("name", .str m.name),
      ("regions", .arr (m.regions.map (·.toJson))),
      ("connectionPoints", .arr (m.connectionPoints.map (·.toJson))),
      ("isMethod", .bool m.isMethod), ("metadata", .obj m.metadata.entries)] := by
  cases m
  rw [toJson, Region.toJsonList_eq_map]

theorem Region.toJson_eq (r : Region) :
    r.toJson = .obj [("id", .str r.id), ("name", .str r.name),
      ("states", .arr (r.states.map (·.toJson))),
      ("vertices", .arr (r.vertices.map (·.toJson))),
      ("transitions", .arr (r.transitions.map (·.toJson)))] := by
  cases r
  rw [toJson, State.toJsonList_eq_map]

theorem State.toJson_eq (s : State) :
    s.toJson = .obj (s.toFields ++ [("isSimple", .bool s.isSimple),
      ("isComposite", .bool s.isComposite), ("isOrthogonal", .bool s.isOrthogonal),
      ("isSubmachineState", .bool s.isSubmachineState),
      ("regions", .arr (s.regions.map (·.toJson))),
      ("submachine", .ofOption StateMachine.toJson s.submachine),
      ("connections", .arr (s.connections.map (·.toJson))),
      ("entry", .ofOption Behavior.toJson s.entry), ("exit", .ofOption Behavior.toJson s.exit),
      ("doActivity", .ofOption Behavior.toJson s.doActivity)]) := by
  obtain ⟨_, _, _, _, _, regions, submachine, _, _, _, _⟩ := s
  rw [toJson, Region.toJsonList_eq_map]
  cases submachine <;> rw [StateMachine.toJsonSlot] <;> rfl

/-- A machine is read back, provided that its regions are. -/
theorem StateMachine.ofJson?_toJson_of_regions {m : StateMachine}
    (h : (Element.stateMachine m).HasTags)
    (hregions : ∀ r ∈ m.regions, Region.ofJson? r.toJson = some r.copy) :
    ofJson? m.toJson = some m.copy := by
  obtain ⟨fields, hfields, hvalues⟩ := record?_obj m.toJson_eq
  have hlist : fields.list "regions" (fun x => Region.ofJson? x.1) =
      some (m.regions.map (·.copy)) := by
    rw [list_eq, hvalues]
    exact Json.readList_map hregions
  have hpoints : fields.list "connectionPoints" (fun x => Pseudostate.ofJson? x.1) =
      some m.connectionPoints := by
    rw [list_eq, hvalues]
    refine Json.readList_map_self fun p hp => ?_
    have hown := (h.child (f := .pseudostate p)
      (by simp [Element.children_stateMachine, hp])).own
    exact Pseudostate.ofJson?_toJson hown.1 hown.2
  have hnotes : fields.optional "metadata" {} (fun x => Metadata.ofJson? x.1) =
      some m.metadata := by
    rw [optional_eq, hvalues]
    exact congrArg some m.metadata.ofFields_entries
  rw [ofJson?, m.copy_eq]
  simp only [hfields, Option.bind_eq_bind, Option.bind_some]
  rw [hnotes]
  simp only [required_eq, optional_eq, hvalues, hlist, hpoints]
  rfl

/-- A region is read back, provided that its states are. -/
theorem Region.ofJson?_toJson_of_states {r : Region} (h : (Element.region r).HasTags)
    (hstates : ∀ s ∈ r.states, State.ofJson? s.toJson = some s.copy) :
    ofJson? r.toJson = some r.copy := by
  obtain ⟨fields, hfields, hvalues⟩ := record?_obj r.toJson_eq
  have hlist : fields.list "states" (fun x => State.ofJson? x.1) =
      some (r.states.map (·.copy)) := by
    rw [list_eq, hvalues]
    exact Json.readList_map hstates
  have hvertices : fields.list "vertices" (fun x => RegionVertex.ofJson? x.1) =
      some r.vertices := by
    rw [list_eq, hvalues]
    refine Json.readList_map_self fun v hv => Element.HasTags.regionVertex (h.child ?_)
    rw [Element.children_region]
    exact List.mem_append_left _ (List.mem_append_right _ (List.mem_map_of_mem hv))
  have htransitions : fields.list "transitions" (fun x => Transition.ofJson? x.1) =
      some r.transitions := by
    rw [list_eq, hvalues]
    refine Json.readList_map_self fun t ht => ?_
    obtain ⟨hkind, hsources, htargets⟩ := (h.child (f := .transition t)
      (by simp [Element.children_region, ht])).own
    exact Transition.ofJson?_toJson hkind hsources htargets
  rw [ofJson?, r.copy_eq]
  simp only [hfields, Option.bind_eq_bind, Option.bind_some, required_eq, optional_eq, hvalues,
    hlist, hvertices, htransitions]
  rfl

/-- A state is read back, provided that its regions and its machine are. -/
theorem State.ofJson?_toJson_of_regions {s : State} (h : (Element.state s).HasTags)
    (hregions : ∀ r ∈ s.regions, Region.ofJson? r.toJson = some r.copy)
    (hsub : ∀ m, s.submachine = some m → StateMachine.ofJson? m.toJson = some m.copy) :
    ofJson? s.toJson = some s.copy := by
  obtain ⟨fields, hfields, hvalues⟩ := record?_obj s.toJson_eq
  have hlist : fields.list "regions" (fun x => Region.ofJson? x.1) =
      some (s.regions.map (·.copy)) := by
    rw [list_eq, hvalues]
    exact Json.readList_map hregions
  have hslot : fields.slot "submachine" (fun x => StateMachine.ofJson? x.1) =
      some (s.submachine.map (·.copy)) := by
    rw [slot_eq, hvalues]
    refine Json.readSlot_ofOption hsub fun m => ?_
    rw [m.toJson_eq]
    nofun
  have hconnections : fields.list "connections" (fun x => ConnectionPointReference.ofJson? x.1) =
      some s.connections := by
    rw [list_eq, hvalues]
    exact Json.readList_map_self fun c hc =>
      Element.HasTags.connectionPointReference (h.child (by simp [Element.children_state, hc]))
  have hactions (key : String) (action : Option Behavior)
      (hkey : fields.values.lookup key = some (.ofOption Behavior.toJson action)) :
      fields.slot key (fun x => Behavior.ofJson? x.1) = some action := by
    rw [slot_eq, hkey]
    exact Json.readSlot_ofOption_self (fun b _ => b.ofJson?_toJson) nofun
  have hentry := hactions "entry" s.entry (by rw [hvalues]; rfl)
  have hexit := hactions "exit" s.exit (by rw [hvalues]; rfl)
  have hact := hactions "doActivity" s.doActivity (by rw [hvalues]; rfl)
  rw [ofJson?, s.copy_eq]
  simp only [hfields, Option.bind_eq_bind, Option.bind_some,
    Vertex.ofRecord?_toFields hvalues h.own, optional_eq, hlist, hslot, hconnections, hentry, hexit,
    hact, hvalues]
  rfl

mutual

theorem StateMachine.ofJson?_toJson (m : StateMachine) (h : (Element.stateMachine m).HasTags) :
    StateMachine.ofJson? m.toJson = some m.copy :=
  m.ofJson?_toJson_of_regions h fun r hr =>
    r.ofJson?_toJson (h.child (by simp [Element.children_stateMachine, hr]))
termination_by sizeOf m
decreasing_by
  cases m
  have := List.sizeOf_lt_of_mem hr
  simp_all
  omega

theorem Region.ofJson?_toJson (r : Region) (h : (Element.region r).HasTags) :
    Region.ofJson? r.toJson = some r.copy :=
  r.ofJson?_toJson_of_states h fun s hs =>
    s.ofJson?_toJson (h.child (by simp [Element.children_region, hs]))
termination_by sizeOf r
decreasing_by
  cases r
  have := List.sizeOf_lt_of_mem hs
  simp_all
  omega

theorem State.ofJson?_toJson (s : State) (h : (Element.state s).HasTags) :
    State.ofJson? s.toJson = some s.copy :=
  s.ofJson?_toJson_of_regions h
    (fun r hr => r.ofJson?_toJson (h.child (by simp [Element.children_state, hr])))
    fun m hm => m.ofJson?_toJson (h.child (by simp [Element.children_state, hm]))
termination_by sizeOf s
decreasing_by
  all_goals cases s
  · have := List.sizeOf_lt_of_mem hr
    simp_all
    omega
  · simp_all
    omega

end

end Statechart
