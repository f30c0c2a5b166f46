import Statechart.Proofs.Integrity.Checks
import Statechart.Proofs.Integrity.Resolution

/-! What the check of associations reports. Elements are associated by their IDs, both ways and each
pair once, however many transitions lead from one to the other. So there is one report for each
ordered pair of recorded elements that some element associates and whose types do not allow it. -/

namespace Statechart

namespace EntityType

/-- The types of vertices, which are tied to vertices only. -/
def vertexTypes : List EntityType :=
  [vertex, state, pseudostate, finalState, connectionPointReference]

/-- The types that contain vertices or connect them. -/
def frameTypes : List EntityType := [stateMachine, region, transition]

theorem mayReference_eq_false_iff {a b : EntityType} :
    a.mayReference b = false ↔ a ∈ vertexTypes ∧ b ∈ frameTypes := by
  cases a <;> cases b <;> decide

end EntityType

namespace Digraph

variable {g : Digraph} {a b : String}

theorem nodup_insert (h : g.edges.Nodup) (a b : String) : (g.insert a b).edges.Nodup := by
  by_cases hab : (a, b) ∈ g.edges
  · rwa [insert_of_mem hab]
  · rw [insert_of_not_mem hab, edges_append]
    refine List.nodup_append.2 ⟨h, List.nodup_singleton _, ?_⟩
    rintro d hd e he rfl
    exact hab (List.mem_singleton.1 he ▸ hd)

theorem nodup_insertBoth (h : g.edges.Nodup) (a b : String) :
    (g.insertBoth a b).edges.Nodup :=
  nodup_insert (nodup_insert h a b) b a

end Digraph

/-- The ends of a reference that their types do not allow. -/
def Defect.misreference? : Defect → Option (String × String)
  | cannotReference source _ target => some (source, target)
  | _ => none

/-- The references that the types of their ends do not allow. -/
def Defects.misreferences (l : Defects) : Defects := l.filter (·.cause.misreference?.isSome)

namespace Survey

variable {s : Survey} {x : Encounter} {p : Part} {d : Located Defect} {a b : String}

theorem nodup_association_link (h : s.association.edges.Nodup) :
    (s.link x p).association.edges.Nodup := by
  by_cases hid : x.element.HasId ∧ p.element.HasId
  · rw [link_of_hasId hid.1 hid.2]
    cases p.role with
    | referencePoint => exact Digraph.nodup_insertBoth h _ _
    | _ => exact h
  · rwa [link_of_blank hid]

theorem nodup_association_settle (h : s.association.edges.Nodup) :
    (s.settle x).association.edges.Nodup := by
  unfold settle
  split
  · simp only [referEnd_eq]
    split
    · split
      · exact h
      · exact Digraph.nodup_insertBoth h _ _
    · exact h
  · split <;> exact h
  · exact h

/-- What is reported of an edge whose ends are not to be joined. -/
def misreference (s : Survey) (edge : String × String) : Defects :=
  match s.entry? edge.1, s.entry? edge.2 with
  | some x, some y =>
    if x.type.mayReference y.type then []
    else [⟨x.type, x.place, .cannotReference edge.1 y.type edge.2⟩]
  | _, _ => []

theorem mem_misreference :
    d ∈ s.misreference (a, b) ↔ ∃ x y, s.entry? a = some x ∧ s.entry? b = some y ∧
      x.type ∈ EntityType.vertexTypes ∧ y.type ∈ EntityType.frameTypes ∧
      d = ⟨x.type, x.place, .cannotReference a y.type b⟩ := by
  unfold misreference
  split
  · next x y hx hy =>
    rw [hx, hy]
    cases hmay : x.type.mayReference y.type with
    | true =>
      have hnot : ¬ (x.type ∈ EntityType.vertexTypes ∧ y.type ∈ EntityType.frameTypes) := by
        rw [← EntityType.mayReference_eq_false_iff, hmay]
        nofun
      simpa using fun hxt hyt => absurd ⟨hxt, hyt⟩ hnot
    | false =>
      obtain ⟨hxt, hyt⟩ := EntityType.mayReference_eq_false_iff.1 hmay
      simp [hxt, hyt]
  · next hnone =>
    refine iff_of_false nofun ?_
    rintro ⟨x, y, hx, hy, -⟩
    exact hnone x y hx hy

/-- An edge has at most one report, which names the edge. -/
theorem map_misreference_sublist (s : Survey) (edge : String × String) :
    ((s.misreference edge).map (·.cause.misreference?)).Sublist [some edge] := by
  unfold misreference
  split
  · split
    · exact List.nil_sublist _
    · exact List.Sublist.refl _
  · exact List.nil_sublist _

end Survey

theorem Walk.Reachable.nodup_association {e : Element} {place : Locator} {w : Walk}
    (h : Reachable e place w) : w.survey.association.edges.Nodup :=
  h.survey_induction (P := fun s => s.association.edges.Nodup) List.nodup_nil
    (fun _ hs => by rwa [Survey.association_meet])
    (fun _ hs => Survey.nodup_association_link hs) fun _ hs => Survey.nodup_association_settle hs

namespace Element

variable {e : Element} {options : Options} {place : Locator} {d : Located Defect} {a b : String}

/-- As no way back is missing, each edge is checked for its types only. -/
theorem associationDefects_survey (e : Element) (place : Locator) :
    (e.survey place).associationDefects =
      (e.survey place).association.edges.flatMap (e.survey place).misreference := by
  apply List.flatMap_congr
  rintro ⟨a, b⟩ hmem
  have hback : (e.survey place).association.contains b a = true := by
    rw [contains_association_comm]
    exact Digraph.contains_iff.2 hmem
  simp only [hback, if_true, List.nil_append, Survey.misreference, Survey.defectAt]
  cases Survey.entry? (e.survey place) a <;> cases Survey.entry? (e.survey place) b <;> rfl

theorem misreferences_integrityDefects (e : Element) (options : Options) (place : Locator) :
    (e.integrityDefects options place).misreferences =
      (e.survey place).association.edges.flatMap (e.survey place).misreference := by
  rw [← associationDefects_survey]
  refine Eq.trans (List.filter_congr fun d hd => ?_)
    (filter_stage_integrityDefects e options place .association)
  have hback (a b : String) := cause_ne_noBackReference (a := a) (b := b) hd
  cases hcause : d.cause with
  | noBackReference a b => exact absurd hcause (hback a b)
  | _ => rfl

/-- The reports in terms of what is recorded and what the elements walked associate. -/
theorem mem_misreferences :
    d ∈ (e.integrityDefects options place).misreferences ↔
      ∃ a b x y, e.first? place a = some x ∧ e.first? place b = some y ∧
        x.type ∈ EntityType.vertexTypes ∧ y.type ∈ EntityType.frameTypes ∧
        (∃ z, e.Walks place z ∧ (z.Associates a b ∨ z.Associates b a)) ∧
        d = ⟨x.type, x.place, .cannotReference a y.type b⟩ := by
  rw [misreferences_integrityDefects, List.mem_flatMap]
  constructor
  · rintro ⟨⟨a, b⟩, hab, hd⟩
    obtain ⟨x, y, hx, hy, hxt, hyt, rfl⟩ := Survey.mem_misreference.1 hd
    exact ⟨a, b, x, y, hx, hy, hxt, hyt, mem_association.1 hab, rfl⟩
  · rintro ⟨a, b, x, y, hx, hy, hxt, hyt, hab, rfl⟩
    exact ⟨(a, b), mem_association.2 hab,
      Survey.mem_misreference.2 ⟨x, y, hx, hy, hxt, hyt, rfl⟩⟩

/-- No pair is reported twice. -/
theorem nodup_misreferences (e : Element) (options : Options) (place : Locator) :
    ((e.integrityDefects options place).misreferences.map (·.cause.misreference?)).Nodup := by
  have hedges := (Walk.reachable_survey e place).nodup_association
  rw [misreferences_integrityDefects, List.map_flatMap]
  refine (hedges.map (Option.some_injective _)).sublist ?_
  generalize (e.survey place).association.edges = edges
  induction edges with
  | nil => exact List.Sublist.refl _
  | cons edge edges ih =>
    rw [List.flatMap_cons]
    exact (Survey.map_misreference_sublist _ edge).append ih

end Element

end Statechart
