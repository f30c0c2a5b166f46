import Statechart.Proofs.Integrity.Stage
import Statechart.Proofs.Location.Findings
import Statechart.Proofs.Survey.Log

/-! What the check of references can find. The ends of all edges between owners and parts are known
when the walk is over, and so are connection point references and their points, because a part is
met right after it was linked. So only the ends of transitions and the machines of states can be
missing, and of associations none lacks its way back. -/

namespace Statechart

/-- An element is recorded for the ID. -/
def Survey.knows (s : Survey) (id : String) : Bool := (s.entry? id).isSome

/-- What is wrong with a reference, if only some IDs are known. -/
def Reference.defect? (known : String → Bool) (r : Reference) : Option (Located Defect) :=
  match r.target with
  | none => some ⟨r.type, r.place, .unset r.field⟩
  | some id => if known id then none else some ⟨r.type, r.place, .unknownTarget r.field id⟩

theorem Defect.kind_eq_reference_iff {cause : Defect} :
    cause.kind = .reference ↔ cause.stage = .reference := by
  cases cause <;> simp [kind, stage]

namespace Encounter

variable {x : Encounter} {known : String → Bool}

/-- What is wrong with an end of a transition, if only some IDs are known. -/
def endDefects (x : Encounter) (known : String → Bool) (t : Transition) (side : TransitionEnd) :
    Defects :=
  match t.atEnd side with
  | none => [⟨.transition, x.place, .unset side.field⟩]
  | some v =>
    if Text.isBlank v.id ∨ known v.id then []
    else [⟨.transition, x.place, .unknownTarget side.field v.id⟩]

/-- What is wrong with the ends of a transition or with the machine of a state. -/
def slotDefects (x : Encounter) (known : String → Bool) : Defects :=
  match x.element with
  | .transition t => x.endDefects known t .source ++ x.endDefects known t .target
  | .state state =>
    if state.isSubmachineState ∧ state.submachine = none then
      [⟨.state, x.place, .unset "Submachine"⟩]
    else []
  | _ => []

theorem filterMap_endReferences {t : Transition} (h : x.element = .transition t)
    (side : TransitionEnd) :
    (x.endReferences t side).filterMap (Reference.defect? known) = x.endDefects known t side := by
  have htype : x.type = .transition := by rw [type, h]; rfl
  unfold endReferences endDefects
  cases t.atEnd side with
  | none => simp [Reference.defect?, htype]
  | some v =>
    by_cases hblank : Text.isBlank v.id = true
    · simp [hblank]
    · by_cases hknown : known v.id = true <;> simp [hblank, hknown, Reference.defect?, htype]

theorem filterMap_ownReferences :
    x.ownReferences.filterMap (Reference.defect? known) = x.slotDefects known := by
  unfold ownReferences slotDefects
  cases hx : x.element with
  | transition t =>
    rw [List.filterMap_append, filterMap_endReferences hx, filterMap_endReferences hx]
  | state state =>
    have htype : x.type = .state := by rw [type, hx]; rfl
    simp only [Option.isNone_iff_eq_none]
    split
    · simp [Reference.defect?, htype]
    · rfl
  | _ => rfl

end Encounter

namespace Survey

variable {s : Survey} {id : String}

theorem knows_iff : s.knows id = true ↔ ∃ x ∈ s.entries, x.id = id := entry?_isSome

theorem referenceDefects_eq (s : Survey) :
    s.referenceDefects = s.references.filterMap (Reference.defect? s.knows) := rfl

end Survey

namespace Element

variable {e : Element} {place : Locator} {x : Encounter} {log : List Task} {a b : String}

theorem knows_of_walks (h : e.Walks place x) (hid : x.element.HasId) :
    (e.survey place).knows x.id = true :=
  Survey.knows_iff.2 ⟨x, h.2 hid, rfl⟩

theorem knows_part_of_walks (h : e.Walks place x) {p : Part} (hp : p ∈ x.element.parts)
    (hid : p.element.HasId) : (e.survey place).knows p.element.id = true := by
  have hmet : x.part p ∈ e.encounters place := mem_encounters.2 (.inr ⟨x, h, p, hp, rfl⟩)
  obtain ⟨first, hfirst, hsame, -⟩ := (Walk.reachable_survey e place).accounted hmet hid
  exact Survey.knows_iff.2 ⟨first, hfirst, hsame⟩

theorem knows_of_mem_edges {r : Relation} {d : String × String}
    (h : d ∈ (e.survey place).edges r) :
    (e.survey place).knows d.1 = true ∧ (e.survey place).knows d.2 = true := by
  have hreach := Walk.reachable_survey e place
  obtain ⟨x, hx, p, hp, -, hpid, rfl⟩ := hreach.edges h
  have hwalks : e.Walks place x := ⟨hreach.entries_subset hx, fun _ => hx⟩
  exact ⟨knows_of_walks hwalks (hreach.entries.1 x hx), knows_part_of_walks hwalks hp hpid⟩

/-- Both a connection point reference that is walked and its points are known. -/
theorem knows_of_associates (h : e.Walks place x) (htype : x.type = .connectionPointReference)
    (hab : x.Associates a b) :
    (e.survey place).knows a = true ∧ (e.survey place).knows b = true := by
  obtain ⟨p, hp, hid, hpid, rfl, rfl⟩ :=
    (Encounter.associates_connectionPointReference htype).1 hab
  exact ⟨knows_of_walks h hid, knows_part_of_walks h hp hpid⟩

/-- Of the tasks of a survey only those that settle an element add references to be reported. -/
theorem HasLog.defects_of_mem (h : e.HasLog place log) {t : Task} (ht : t ∈ log) :
    t.references.filterMap (Reference.defect? (e.survey place).knows) =
      t.settled?.toList.flatMap (·.slotDefects (e.survey place).knows) := by
  cases t with
  | visit x => rfl
  | follow x p =>
    obtain ⟨hx, hp⟩ := h.follow_mem_iff.1 ht
    simp only [Task.references]
    split
    · next hids => simp [Reference.defect?, knows_part_of_walks hx hp hids.2, Task.settled?]
    · rfl
  | settle x =>
    rw [Task.settled?, Option.toList_some, List.flatMap_singleton]
    exact Encounter.filterMap_ownReferences

/-- The elements walked are reported for their missing ends and machines, and for nothing else. -/
theorem referenceDefects_survey (e : Element) (place : Locator) :
    (e.survey place).referenceDefects =
      (e.completed place).flatMap (·.slotDefects (e.survey place).knows) := by
  obtain ⟨log, hlog⟩ := e.exists_hasLog place
  rw [Survey.referenceDefects_eq, hlog.references, ← hlog.completed, List.filterMap_flatMap,
    List.flatMap_congr fun t ht => hlog.defects_of_mem ht, List.filterMap_eq_flatMap_toList,
    List.flatMap_assoc]

theorem contains_association_comm (e : Element) (place : Locator) (a b : String) :
    (e.survey place).association.contains a b = (e.survey place).association.contains b a := by
  have hsymm := (Walk.reachable_survey e place).association_symm
  rw [Bool.eq_iff_iff, Digraph.contains_iff, Digraph.contains_iff]
  exact ⟨hsymm a b, hsymm b a⟩

theorem cause_ne_noBackReference {options : Options} {d : Located Defect}
    (hd : d ∈ e.integrityDefects options place) : d.cause ≠ .noBackReference a b := by
  intro hcause
  have hstage := mem_integrityDefects_iff_stage.1 hd
  rw [hcause] at hstage
  obtain ⟨u, v, huv, ⟨hback, -⟩ | ⟨x, y, -, -, -, rfl⟩⟩ := Survey.mem_associationDefects hstage
  · exact hback ((Walk.reachable_survey e place).association_symm u v huv)
  · rw [Survey.defectAt_cause] at hcause
    cases hcause

/-- All IDs in edges between owners and parts are known, as are connection point references and
their points, and elements are associated both ways. So what the check of references reports is
what the elements walked lack, and no way back is ever missing. -/
theorem reference_reports (e : Element) (options : Options) (place : Locator) :
    (∀ r, ∀ d ∈ (e.survey place).edges r,
      (e.survey place).knows d.1 = true ∧ (e.survey place).knows d.2 = true) ∧
    (∀ x a b, e.Walks place x → x.type = .connectionPointReference → x.Associates a b →
      (a, b) ∈ (e.survey place).association.edges ∧
        (e.survey place).knows a = true ∧ (e.survey place).knows b = true) ∧
    (∀ a b, (e.survey place).association.contains a b =
      (e.survey place).association.contains b a) ∧
    (e.integrityDefects options place).filter (·.cause.kind = .reference) =
      (e.completed place).flatMap (·.slotDefects (e.survey place).knows) ∧
    ∀ d ∈ e.integrityDefects options place, ∀ a b, d.cause ≠ .noBackReference a b := by
  refine ⟨fun r d hd => knows_of_mem_edges hd, ?_, contains_association_comm e place, ?_,
    fun d hd a b => cause_ne_noBackReference hd⟩
  · intro x a b hx htype hab
    exact ⟨mem_association.2 ⟨x, hx, .inl hab⟩, knows_of_associates hx htype hab⟩
  · simp only [Defect.kind_eq_reference_iff, filter_stage_integrityDefects]
    exact referenceDefects_survey e place

/-- A region with a state that lacks its machine and holds a transition from nowhere to an unknown
end. Of the transitions of the region itself the first has a taken ID, the second a blank end, and
the last one comes from nowhere. -/
def outpost : Element := .region {
  id := "r"
  states := [{
    id := "s", type := .state, isSubmachineState := true
    regions := [{ id := "q", transitions := [{ id := "t", target := ghost }] }] }]
  transitions := [{ id := "t", target := ghost }, { id := "", source := hall, target := blank },
    { id := "u", target := hall }] }
where
  hall : Vertex := { id := "s", type := .state }
  ghost : Vertex := { id := "g", type := .state }
  blank : Vertex := { id := " ", type := .state }

theorem outpost_reported :
    (outpost.integrityDefects {} []).filter (·.cause.kind = .reference) =
      [⟨.transition, [.item "States" 0, .item "Regions" 0, .item "Transitions" 0],
        .unset "Source"⟩,
      ⟨.transition, [.item "States" 0, .item "Regions" 0, .item "Transitions" 0],
        .unknownTarget "Target" "g"⟩,
      ⟨.state, [.item "States" 0], .unset "Submachine"⟩,
      ⟨.transition, [.item "Transitions" 2], .unset "Source"⟩] := by
  rw [(reference_reports outpost {} []).2.2.2.1]
  cbv

end Element

end Statechart
