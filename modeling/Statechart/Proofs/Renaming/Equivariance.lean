import Statechart.Proofs.Renaming.Checks

/-! Renamed models. The findings for a renamed model are those for the model, one by one, and only
the IDs in their messages are other ones. This covers what depends on the order of IDs as well:
which of two rotations of a cycle is reported is decided by the order of the edges, not by the
names. -/

namespace Statechart

namespace Element

variable (f : Renaming) (e : Element)

theorem id_rename : (e.rename f).id = f e.id := by cases e <;> simp [rename, id]

theorem type_rename : (e.rename f).type = e.type := by cases e <;> rfl

theorem definition?_rename : (e.rename f).definition? = e.definition? := by
  cases e <;> simp [rename, definition?]

theorem parts_rename :
    (e.rename f).parts = e.parts.map fun p => { p with element := p.element.rename f } := by
  have members {α : Type} (role : Role) (field : String) (element : α → Element) (g : α → α)
      (l : List α) (h : ∀ x, element (g x) = (element x).rename f) :
      Part.ofList role field element (l.map g) =
        (Part.ofList role field element l).map fun p =>
          { p with element := p.element.rename f } := Part.ofList_map h
  cases e with
  | stateMachine m =>
    rw [show (stateMachine m).rename f = stateMachine (m.rename f) from rfl, parts, parts,
      StateMachine.regions_rename, StateMachine.connectionPoints_rename, List.map_append]
    exact congrArg₂ _ (members _ _ region _ _ fun _ => rfl)
      (members _ _ pseudostate _ _ fun _ => rfl)
  | region r =>
    rw [show (region r).rename f = region (r.rename f) from rfl, parts, parts,
      Region.states_rename, Region.vertices_rename, Region.transitions_rename, List.map_append,
      List.map_append]
    exact congrArg₂ _ (congrArg₂ _ (members _ _ state _ _ fun _ => rfl)
      (members _ _ RegionVertex.element _ _ fun v => v.element_rename f))
      (members _ _ transition _ _ fun _ => rfl)
  | state s =>
    rw [show (state s).rename f = state (s.rename f) from rfl, parts, parts,
      State.regions_rename, State.connections_rename, State.submachine_rename, List.map_append,
      List.map_append]
    refine congrArg₂ _ (congrArg₂ _ (members _ _ region _ _ fun _ => rfl)
      (members _ _ connectionPointReference _ _ fun _ => rfl)) ?_
    cases s.submachine <;> rfl
  | connectionPointReference c =>
    rw [show (connectionPointReference c).rename f = connectionPointReference (c.rename f) from rfl,
      parts, parts, List.map_append]
    exact congrArg₂ _ (members _ _ pseudostate _ _ fun _ => rfl)
      (members _ _ pseudostate _ _ fun _ => rfl)
  | vertex v => rfl
  | pseudostate p => rfl
  | finalState x => rfl
  | transition t => rfl

end Element

/-- A renaming as a recast, at places below a base. -/
def Renaming.recast (f : Renaming) (base : Locator) : Recast where
  ids := f
  base := base
  element := Element.rename f
  shape := Vertex.rename f
  point := Pseudostate.rename f
  shape_injective := Vertex.rename_injective f
  point_injective := Pseudostate.rename_injective f
  id_element := Element.id_rename f
  type_element := Element.type_rename f
  definition?_element := Element.definition?_rename f
  parts_element := Element.parts_rename f
  element_vertex _ := rfl
  element_pseudostate _ := rfl
  element_state s :=
    ⟨s.rename f, rfl, s.toVertex_rename f, (s.rename_frame f).2.2.2.1, by simp⟩
  element_transition t :=
    ⟨t.rename f, rfl, fun side => by simp [Function.comp_def]⟩

theorem Defect.recast_heading (f : Renaming) (base : Locator) (d : Defect) :
    (d.recast f base).kind = d.kind ∧ (d.recast f base).field = d.field := by
  cases d <;> exact ⟨rfl, rfl⟩

theorem Defect.cycle?_recast (f : Renaming) (base : Locator) (d : Defect) (r : Relation) :
    (d.recast f base).cycle? r = (d.cycle? r).map (·.map f) := by
  cases d with
  | cycle r' nodes =>
    simp only [recast, cycle?]
    split <;> rfl
  | _ => rfl

/-- Two findings that are alike but for what their messages say. -/
structure Finding.Matches (a b : Finding) : Prop where
  kind : b.kind = a.kind
  type : b.type = a.type
  field : b.field = a.field
  path : b.path = a.path

/-- A recast without a base changes nothing but the cause, so it matches if that keeps its kind and
its field. -/
theorem Located.matches_recast {α : Type} [Cause α] {g : α → α} {l : Located α}
    (h : (Cause.kind (g l.cause) = Cause.kind l.cause) ∧
      Cause.field (g l.cause) = Cause.field l.cause) :
    l.finding.Matches (l.recast [] g).finding :=
  ⟨h.1, rfl, h.2, rfl⟩

namespace StateMachine

/-- The findings for a renamed machine have one by one the kind, the type, the field and the path of
those for the machine, and the cycles that they report are the renamed ones. -/
theorem validate_rename (f : Renaming) (m : StateMachine) (options : Options) :
    List.Forall₂ Finding.Matches (m.validate options) ((m.rename f).validate options) ∧
      List.Forall₂ (fun d d' => ∀ r, d'.cause.cycle? r = (d.cause.cycle? r).map (·.map f))
        ((Element.stateMachine m).integrityDefects options [])
        ((Element.stateMachine (m.rename f)).integrityDefects options []) := by
  have hcontext : Context.IsRecast f [] { options } { options } := ⟨rfl, rfl, rfl, rfl⟩
  have hrules := m.breaches_rename hcontext
  have hintegrity : (Element.stateMachine (m.rename f)).integrityDefects options [] =
      ((Element.stateMachine m).integrityDefects options []).map
        (Located.recast [] (Defect.recast f [])) :=
    (f.recast []).integrityDefects_element (.stateMachine m) options []
  constructor
  · unfold validate ruleFindings Breaches.findings Defects.findings
    rw [hrules, hintegrity, List.map_map, List.map_map]
    refine List.rel_append ?_ ?_ <;>
      rw [List.forall₂_map_left_iff, List.forall₂_map_right_iff, List.forall₂_same] <;> intro d _
    · exact Located.matches_recast (d.cause.rename_heading f)
    · exact Located.matches_recast (d.cause.recast_heading f [])
  · rw [hintegrity, List.forall₂_map_right_iff, List.forall₂_same]
    intro d _ r
    exact d.cause.cycle?_recast f [] r

/-- A machine in which a region seems to hold itself. -/
def loop : StateMachine where
  id := "m"
  regions := [{
    id := "r"
    states := [{ id := "s", type := .state, isComposite := true, regions := [{ id := "r" }] }]
    vertices := [.vertex { id := "s", type := .state }] }]

/-- The cycle starts at the outer region whichever of its two IDs is the lesser one. -/
theorem loop_renamed :
    Defects.cycles ((Element.stateMachine loop).integrityDefects {} []) .containment =
        [["r", "s", "r"]] ∧
      Defects.cycles ((Element.stateMachine
        (loop.rename (.swap "r" "s" (by decide)))).integrityDefects {} []) .containment =
        [["s", "r", "s"]] := by
  have cycles_map {f : Renaming} {l l' : Defects} {r : Relation}
      (h : List.Forall₂ (fun d d' : Located Defect =>
        ∀ r, d'.cause.cycle? r = (d.cause.cycle? r).map (·.map f)) l l') :
      l'.cycles r = (l.cycles r).map (·.map f) := by
    induction h with
    | nil => rfl
    | @cons d d' l l' hd _ ih =>
      unfold Defects.cycles at ih ⊢
      rw [List.filterMap_cons, List.filterMap_cons, hd r, ih]
      cases d.cause.cycle? r <;> rfl
  have hloop : Defects.cycles ((Element.stateMachine loop).integrityDefects {} []) .containment =
      [["r", "s", "r"]] := by cbv
  refine ⟨hloop, ?_⟩
  rw [cycles_map (validate_rename (.swap "r" "s" (by decide)) loop {}).2, hloop]
  decide

end StateMachine

end Statechart
