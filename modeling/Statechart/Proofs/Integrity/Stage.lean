import Statechart.Integrity.Check
import Statechart.Proofs.Survey.Arrival

/-! The stages of an integrity check: the walk, the references, the associations and the two
relations. What a check can report, and on what grounds, is said once for each of them. Each stage
has causes of its own, so what is said of one kind of defect is said of the stage that it belongs
to. -/

namespace Statechart

inductive Stage where
  | walk
  | reference
  | association
  | relation (r : Relation)
deriving DecidableEq

namespace Defect

def stage : Defect → Stage
  | noId | duplicateId _ _ _ => .walk
  | unset _ | unknownTarget _ _ => .reference
  | noBackReference _ _ | cannotReference _ _ _ => .association
  | cannotContain _ _ _ => .relation .containment
  | cannotStandFor _ _ _ => .relation .submachine
  | cycle r _ | tooDeep r _ _ _ => .relation r

def isDuplicate : Defect → Bool
  | duplicateId _ _ _ => true
  | _ => false

/-- An edge between types that must not be joined. -/
def isClash : Defect → Bool
  | cannotContain _ _ _ | cannotStandFor _ _ _ => true
  | _ => false

def isCycle : Defect → Bool
  | cycle _ _ => true
  | _ => false

/-- A search that was broken off at the limit. -/
def isTooDeep : Defect → Bool
  | tooDeep _ _ _ _ => true
  | _ => false

theorem harmless_of_stage {cause : Defect} (h : ∀ r, cause.stage ≠ .relation r) :
    cause.isClash = false ∧ cause.isCycle = false := by
  cases cause <;> first | exact ⟨rfl, rfl⟩ | exact absurd rfl (h _)

theorem harmless_of_isTooDeep {cause : Defect} (h : cause.isTooDeep = true) :
    cause.isClash = false ∧ cause.isCycle = false := by
  cases cause <;> first | exact ⟨rfl, rfl⟩ | cases h

/-- The nodes of a cycle of the relation. -/
def cycle? (r : Relation) : Defect → Option (List String)
  | cycle r' nodes => if r' = r then some nodes else none
  | _ => none

theorem cycle?_eq_some {r : Relation} {cause : Defect} {nodes : List String} :
    cause.cycle? r = some nodes ↔ cause = cycle r nodes := by
  cases cause <;> simp [cycle?]

end Defect

/-- The cycles of a relation that were reported. -/
def Defects.cycles (l : Defects) (r : Relation) : List (List String) :=
  l.filterMap fun d => d.cause.cycle? r

theorem Defects.mem_cycles {l : Defects} {r : Relation} {nodes : List String} :
    nodes ∈ l.cycles r ↔ ∃ d ∈ l, d.cause = .cycle r nodes := by
  simp [cycles, Defect.cycle?_eq_some]

theorem Defects.cycles_filter_stage (l : Defects) (r : Relation) :
    Defects.cycles (l.filter (·.cause.stage = .relation r)) r = l.cycles r := by
  unfold cycles
  rw [List.filterMap_filter]
  refine List.filterMap_congr fun d _ => ?_
  rw [ite_eq_left_iff]
  intro hstage
  refine (Option.eq_none_iff_forall_ne_some.2 fun nodes hnodes => hstage ?_).symm
  rw [Defect.cycle?_eq_some.1 hnodes]
  simp [Defect.stage]

/-- Of defects that belong to one stage, those of a stage are all or none. -/
theorem Defects.filter_of_stage {l : Defects} {stage : Stage}
    (h : ∀ d ∈ l, d.cause.stage = stage) (stage' : Stage) :
    l.filter (·.cause.stage = stage') = if stage = stage' then l else [] := by
  split
  · next heq => exact List.filter_eq_self.2 fun d hd => by simp [h d hd, heq]
  · next hne => exact List.filter_eq_nil_iff.2 fun d hd => by simp [h d hd, hne]

namespace Survey

variable {s : Survey} {limit : Nat} {d : Located Defect}

theorem defectAt_cause (id : String) (cause : Defect) : (s.defectAt id cause).cause = cause := by
  unfold defectAt; split <;> rfl

theorem mem_referenceDefects (h : d ∈ s.referenceDefects) :
    ∃ r ∈ s.references, d.type = r.type ∧ d.place = r.place ∧
      (r.target = none ∧ d.cause = .unset r.field ∨
        ∃ id, r.target = some id ∧ s.entry? id = none ∧ d.cause = .unknownTarget r.field id) := by
  obtain ⟨r, hr, heq⟩ := List.mem_filterMap.1 h
  refine ⟨r, hr, ?_⟩
  split at heq
  · next htarget =>
    cases heq
    exact ⟨rfl, rfl, .inl ⟨htarget, rfl⟩⟩
  · next id htarget =>
    split at heq
    · cases heq
    · next hnone =>
      cases heq
      exact ⟨rfl, rfl, .inr ⟨id, htarget, Option.not_isSome_iff_eq_none.1 hnone, rfl⟩⟩

theorem mem_associationDefects (h : d ∈ s.associationDefects) :
    ∃ a b, (a, b) ∈ s.association.edges ∧
      ((b, a) ∉ s.association.edges ∧ d = s.defectAt a (.noBackReference a b) ∨
        ∃ x y, s.entry? a = some x ∧ s.entry? b = some y ∧
          x.type.mayReference y.type = false ∧ d = s.defectAt a (.cannotReference a y.type b)) := by
  obtain ⟨⟨a, b⟩, hab, hd⟩ := List.mem_flatMap.1 h
  refine ⟨a, b, hab, ?_⟩
  rcases List.mem_append.1 hd with hd | hd
  · split at hd
    · cases hd
    · next hback =>
      exact .inl ⟨fun hba => hback (Digraph.contains_iff.2 hba), List.mem_singleton.1 hd⟩
  · split at hd
    · next x y hx hy =>
      split at hd
      · cases hd
      · next hnot =>
        exact .inr ⟨x, y, hx, hy, Bool.eq_false_iff.2 hnot, List.mem_singleton.1 hd⟩
    · cases hd

theorem mem_clashDefects {r : Relation} {a b : String} (h : d ∈ s.clashDefects r a b) :
    ∃ x y, s.entry? a = some x ∧ s.entry? b = some y ∧ r.allows x.type y.type = false ∧
      d = s.defectAt a (r.clash a b y.type) := by
  unfold clashDefects at h
  split at h
  · next x y hx hy =>
    split at h
    · cases h
    · next hnot =>
      exact ⟨x, y, hx, hy, Bool.eq_false_iff.2 hnot, List.mem_singleton.1 h⟩
  · cases h

theorem stage_of_mem_referenceDefects (h : d ∈ s.referenceDefects) :
    d.cause.stage = .reference := by
  obtain ⟨r, -, -, -, ⟨-, hcause⟩ | ⟨id, -, -, hcause⟩⟩ := mem_referenceDefects h <;>
    rw [hcause] <;> rfl

theorem stage_of_mem_associationDefects (h : d ∈ s.associationDefects) :
    d.cause.stage = .association := by
  obtain ⟨a, b, -, ⟨-, rfl⟩ | ⟨x, y, -, -, -, rfl⟩⟩ := mem_associationDefects h <;>
    rw [defectAt_cause] <;> rfl

/-- An edge of the graph of a relation was recorded for that relation or the other one. -/
theorem exists_mem_edges_of_graph {r : Relation} {d : String × String}
    (h : d ∈ (s.graph r).edges) : ∃ r', d ∈ s.edges r' := by
  cases r with
  | containment => exact ⟨.containment, h⟩
  | submachine =>
    rcases List.mem_append.1 h with h | h
    · exact ⟨.containment, h⟩
    · exact ⟨.submachine, h⟩

theorem clashDefects_cause {r : Relation} {a b : String} (h : d ∈ s.clashDefects r a b) :
    ∃ type, d.cause = r.clash a b type := by
  obtain ⟨x, y, -, -, -, rfl⟩ := mem_clashDefects h
  exact ⟨y.type, defectAt_cause _ _⟩

theorem stage_clash (r : Relation) (a b : String) (type : EntityType) :
    (r.clash a b type).stage = .relation r := by
  cases r <;> rfl

theorem mem_edgeDefects {r : Relation} {edges : List (String × String)}
    {seen : List (List String)} (h : d ∈ s.edgeDefects limit r edges seen) :
    ∃ a b, (a, b) ∈ edges ∧ (d ∈ s.clashDefects r a b ∨
      (∃ path, (s.graph r).findPath b a limit = .tooDeep path ∧
        d = s.defectAt a (.tooDeep r a limit path)) ∨
      ∃ path, (s.graph r).findPath b a limit = .found path ∧
        d = s.defectAt a (.cycle r (a :: path))) := by
  induction edges generalizing seen with
  | nil => cases h
  | cons edge rest ih =>
    obtain ⟨a, b⟩ := edge
    have tail {P : String → String → Prop} (h : ∃ a b, (a, b) ∈ rest ∧ P a b) :
        ∃ x y, (x, y) ∈ (a, b) :: rest ∧ P x y := by
      obtain ⟨x, y, hmem, hP⟩ := h
      exact ⟨x, y, .tail _ hmem, hP⟩
    unfold edgeDefects at h
    rcases List.mem_append.1 h with h | h
    · exact ⟨a, b, .head _, .inl h⟩
    · split at h
      · exact tail (ih h)
      · next path hpath =>
        rcases List.mem_cons.1 h with h | h
        · exact ⟨a, b, .head _, .inr (.inl ⟨path, hpath, h⟩)⟩
        · exact tail (ih h)
      · next path hpath =>
        simp only at h
        split at h
        · exact tail (ih h)
        · rcases List.mem_cons.1 h with h | h
          · exact ⟨a, b, .head _, .inr (.inr ⟨path, hpath, h⟩)⟩
          · exact tail (ih h)

theorem stage_of_mem_relationDefects {r : Relation} (h : d ∈ s.relationDefects limit r) :
    d.cause.stage = .relation r := by
  obtain ⟨a, b, -, h | ⟨path, -, rfl⟩ | ⟨path, -, rfl⟩⟩ := mem_edgeDefects h
  · obtain ⟨type, hcause⟩ := clashDefects_cause h
    rw [hcause, stage_clash]
  · rw [defectAt_cause]; rfl
  · rw [defectAt_cause]; rfl

/-- What a stage reports. -/
def stageDefects (s : Survey) (limit : Nat) : Stage → Defects
  | .walk => s.defects
  | .reference => s.referenceDefects
  | .association => s.associationDefects
  | .relation r => s.relationDefects limit r

end Survey

namespace Element

variable {e : Element} {options : Options} {place : Locator} {d : Located Defect}

theorem stage_of_mem_survey_defects (h : d ∈ (e.survey place).defects) :
    d.cause.stage = .walk := by
  obtain ⟨a, -, hd⟩ := Walk.mem_survey_defects.1 h
  obtain ⟨-, -, ⟨-, hcause⟩ | ⟨first, -, -, -, hcause⟩⟩ := Arrival.mem_defects.1 hd <;>
    rw [hcause] <;> rfl

theorem mem_integrityDefects :
    d ∈ e.integrityDefects options place ↔
      d ∈ (e.survey place).defects ∨ d ∈ (e.survey place).referenceDefects ∨
        d ∈ (e.survey place).associationDefects ∨
        ∃ r, d ∈ (e.survey place).relationDefects options.maxCycleDepth r := by
  simp only [integrityDefects, Survey.allDefects, List.mem_append, or_assoc]
  constructor
  · rintro (h | h | h | h | h)
    exacts [.inl h, .inr (.inl h), .inr (.inr (.inl h)), .inr (.inr (.inr ⟨_, h⟩)),
      .inr (.inr (.inr ⟨_, h⟩))]
  · rintro (h | h | h | ⟨r, h⟩)
    · exact .inl h
    · exact .inr (.inl h)
    · exact .inr (.inr (.inl h))
    · cases r
      · exact .inr (.inr (.inr (.inl h)))
      · exact .inr (.inr (.inr (.inr h)))

/-- A defect is reported at the stage that its cause belongs to. -/
theorem mem_integrityDefects_iff_stage :
    d ∈ e.integrityDefects options place ↔
      d ∈ (e.survey place).stageDefects options.maxCycleDepth d.cause.stage := by
  constructor
  · intro hd
    rcases mem_integrityDefects.1 hd with h | h | h | ⟨r, h⟩
    · rwa [stage_of_mem_survey_defects h]
    · rwa [Survey.stage_of_mem_referenceDefects h]
    · rwa [Survey.stage_of_mem_associationDefects h]
    · rwa [Survey.stage_of_mem_relationDefects h]
  · intro hd
    refine mem_integrityDefects.2 ?_
    cases hstage : d.cause.stage with
    | walk => exact .inl (by rwa [hstage] at hd)
    | reference => exact .inr (.inl (by rwa [hstage] at hd))
    | association => exact .inr (.inr (.inl (by rwa [hstage] at hd)))
    | relation r => exact .inr (.inr (.inr ⟨r, by rwa [hstage] at hd⟩))

/-- The defects of a stage are what that stage reports, in its order. -/
theorem filter_stage_integrityDefects (e : Element) (options : Options) (place : Locator)
    (stage : Stage) :
    (e.integrityDefects options place).filter (·.cause.stage = stage) =
      (e.survey place).stageDefects options.maxCycleDepth stage := by
  have hw := Defects.filter_of_stage (fun d (hd : d ∈ (e.survey place).defects) =>
    stage_of_mem_survey_defects hd) stage
  have hr := Defects.filter_of_stage (fun d (hd : d ∈ (e.survey place).referenceDefects) =>
    Survey.stage_of_mem_referenceDefects hd) stage
  have ha := Defects.filter_of_stage (fun d (hd : d ∈ (e.survey place).associationDefects) =>
    Survey.stage_of_mem_associationDefects hd) stage
  have ho (r) := Defects.filter_of_stage
    (fun d (hd : d ∈ (e.survey place).relationDefects options.maxCycleDepth r) =>
      Survey.stage_of_mem_relationDefects hd) stage
  simp only [integrityDefects, Survey.allDefects, List.filter_append, hw, hr, ha, ho]
  cases stage with
  | relation r => cases r <;> simp [Survey.stageDefects]
  | _ => simp [Survey.stageDefects]

/-- The cycles of a relation are reported by the check of that relation, in its order. -/
theorem cycles_integrityDefects (e : Element) (options : Options) (place : Locator)
    (r : Relation) :
    (e.integrityDefects options place).cycles r =
      Defects.cycles ((e.survey place).relationDefects options.maxCycleDepth r) r := by
  rw [← Defects.cycles_filter_stage, filter_stage_integrityDefects]
  rfl

end Element

end Statechart
