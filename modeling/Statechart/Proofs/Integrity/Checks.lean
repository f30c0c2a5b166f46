import Statechart.Proofs.Integrity.Stage

/-! What the checks see of a finished survey: the types and places of the elements that were
recorded for the IDs, the references and the three graphs. Surveys of different models that agree in
all this get the same defects from the checks. -/

namespace Statechart

namespace Survey

/-- What the checks on the finished survey report. -/
def checkDefects (s : Survey) (limit : ℕ) : Defects :=
  s.referenceDefects ++ s.associationDefects ++ s.relationDefects limit .containment
    ++ s.relationDefects limit .submachine

/-- The type and the place of the element that was recorded for an ID. -/
def heading? (s : Survey) (id : String) : Option (EntityType × Locator) :=
  (s.entry? id).map fun x => (x.type, x.place)

/-- The checks see no difference between the surveys. -/
structure SameRecord (s s' : Survey) : Prop where
  headings : ∀ id, s'.heading? id = s.heading? id
  references : s'.references = s.references
  edges : ∀ r, s'.edges r = s.edges r
  association : s'.association = s.association

variable {s s' : Survey} {limit : ℕ}

theorem allDefects_eq (s : Survey) (limit : ℕ) :
    s.allDefects limit = s.defects ++ s.checkDefects limit := by
  simp only [allDefects, checkDefects, List.append_assoc]

theorem isSome_heading? (s : Survey) (id : String) :
    (s.heading? id).isSome = (s.entry? id).isSome := Option.isSome_map

/-! Each check in terms of the headings -/

theorem defectAt_eq (s : Survey) (id : String) (cause : Defect) :
    s.defectAt id cause =
      match s.heading? id with
      | some (type, place) => ⟨type, place, cause⟩
      | none => ⟨.vertex, [], cause⟩ := by
  unfold defectAt heading?
  cases s.entry? id <;> rfl

theorem clashDefects_eq (s : Survey) (r : Relation) (a b : String) :
    s.clashDefects r a b =
      match s.heading? a, s.heading? b with
      | some (type, _), some (type', _) =>
        if r.allows type type' then [] else [s.defectAt a (r.clash a b type')]
      | _, _ => [] := by
  unfold clashDefects heading?
  cases s.entry? a <;> cases s.entry? b <;> rfl

theorem associationDefects_eq (s : Survey) :
    s.associationDefects = s.association.edges.flatMap fun (a, b) =>
      (if s.association.contains b a then [] else [s.defectAt a (.noBackReference a b)])
        ++ match s.heading? a, s.heading? b with
          | some (type, _), some (type', _) =>
            if type.mayReference type' then [] else [s.defectAt a (.cannotReference a type' b)]
          | _, _ => [] := by
  unfold associationDefects heading?
  congr 1
  funext ⟨a, b⟩
  dsimp only
  cases s.entry? a <;> cases s.entry? b <;> rfl

namespace SameRecord

theorem defectAt (h : s.SameRecord s') (id : String) (cause : Defect) :
    s'.defectAt id cause = s.defectAt id cause := by
  rw [defectAt_eq, defectAt_eq, h.headings]

theorem referenceDefects (h : s.SameRecord s') : s'.referenceDefects = s.referenceDefects := by
  unfold Survey.referenceDefects
  simp only [h.references, ← isSome_heading?, h.headings]

theorem associationDefects (h : s.SameRecord s') :
    s'.associationDefects = s.associationDefects := by
  rw [associationDefects_eq, associationDefects_eq]
  simp only [h.association, h.headings, h.defectAt]

theorem graph (h : s.SameRecord s') (r : Relation) : s'.graph r = s.graph r := by
  have hcontainment : s'.containment = s.containment := congrArg Digraph.mk (h.edges .containment)
  have hstandIn : s'.standIn = s.standIn := congrArg Digraph.mk (h.edges .submachine)
  cases r <;> simp only [Survey.graph, hcontainment, hstandIn]

theorem edgeDefects (h : s.SameRecord s') (r : Relation) (edges : List (String × String))
    (seen : List (List String)) :
    s'.edgeDefects limit r edges seen = s.edgeDefects limit r edges seen := by
  induction edges generalizing seen with
  | nil => rfl
  | cons edge rest ih =>
    unfold Survey.edgeDefects
    simp only [clashDefects_eq, h.headings, h.graph, h.defectAt, ih]

theorem checkDefects (h : s.SameRecord s') : s'.checkDefects limit = s.checkDefects limit := by
  unfold Survey.checkDefects relationDefects
  simp only [h.referenceDefects, h.associationDefects, h.edges, h.edgeDefects]

end SameRecord

end Survey

/-- An integrity check reports what the walk found, and then what the checks find. -/
theorem Element.integrityDefects_eq_append (e : Element) (options : Options) (place : Locator) :
    e.integrityDefects options place =
      (e.survey place).defects ++ (e.survey place).checkDefects options.maxCycleDepth :=
  Survey.allDefects_eq _ _

end Statechart
