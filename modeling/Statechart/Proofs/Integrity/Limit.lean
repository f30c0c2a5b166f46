import Mathlib
import Statechart.Proofs.Graph.SearchLimit
import Statechart.Proofs.Integrity.Ceiling

/-! What the limit of the searches decides. Only the searches look at it, and a search that is not
broken off has one answer under all greater limits. So a check without a broken-off search is the
check under each greater limit, and apart from cycles and broken-off searches the limit changes
nothing. -/

namespace Statechart

/-- The outcome of a search: a cycle, or that the search was broken off. -/
def Defect.isSearched (d : Defect) : Bool := d.isCycle || d.isTooDeep

theorem Defect.isTooDeep_of_stage {d : Defect} (h : ∀ r, d.stage ≠ .relation r) :
    d.isTooDeep = false := by
  cases d <;> first | rfl | exact absurd rfl (h _)

namespace Survey

variable {s : Survey} {limit limit' : Nat} {r : Relation}

theorem edgeDefects_of_le (hle : limit ≤ limit') {edges : List (String × String)}
    {seen : List (List String)}
    (h : ∀ d ∈ s.edgeDefects limit r edges seen, d.cause.isTooDeep = false) :
    s.edgeDefects limit' r edges seen = s.edgeDefects limit r edges seen := by
  induction edges generalizing seen with
  | nil => rfl
  | cons edge rest ih =>
    obtain ⟨a, b⟩ := edge
    unfold edgeDefects at h ⊢
    have hrest := fun d hd => h d (List.mem_append_right _ hd)
    rcases (s.graph r).findPath_of_le hle b a with ⟨path, hdeep⟩ | hsame
    · rw [hdeep] at hrest
      have hfalse := hrest _ (.head _)
      rw [defectAt_cause] at hfalse
      cases hfalse
    · rw [hsame]
      -- with one answer the same keys are seen from here on
      congr 1
      cases hpath : (s.graph r).findPath b a limit with
      | clear =>
        rw [hpath] at hrest
        exact ih hrest
      | tooDeep path =>
        rw [hpath] at hrest
        have hfalse := hrest _ (.head _)
        rw [defectAt_cause] at hfalse
        cases hfalse
      | found path =>
        rw [hpath] at hrest
        by_cases hseen : cycleKey (a :: path) ∈ seen
        · simp only [if_pos hseen] at hrest ⊢
          exact ih hrest
        · simp only [if_neg hseen] at hrest ⊢
          rw [ih fun d hd => hrest d (.tail _ hd)]

theorem filter_edgeDefects (edges : List (String × String)) (seen : List (List String)) :
    (s.edgeDefects limit r edges seen).filter (!·.cause.isSearched) =
      edges.flatMap fun edge => s.clashDefects r edge.1 edge.2 := by
  induction edges generalizing seen with
  | nil => rfl
  | cons edge rest ih =>
    obtain ⟨a, b⟩ := edge
    have hclash : (s.clashDefects r a b).filter (!·.cause.isSearched) = s.clashDefects r a b := by
      apply List.filter_eq_self.2
      intro d hd
      obtain ⟨type, hcause⟩ := clashDefects_cause hd
      rw [hcause]
      cases r <;> rfl
    have outcome (cause : Defect) (hcause : cause.isSearched = true) (l : Defects) :
        (s.defectAt a cause :: l).filter (!·.cause.isSearched) =
          l.filter (!·.cause.isSearched) := by
      rw [List.filter_cons_of_neg]
      simp [defectAt_cause, hcause]
    rw [edgeDefects, List.filter_append, hclash, List.flatMap_cons]
    congr 1
    split
    · exact ih seen
    · rw [outcome _ rfl]
      exact ih seen
    · simp only
      split
      · exact ih seen
      · rw [outcome _ rfl]
        exact ih _

end Survey

namespace Element

/-- A limit only hides what a greater one shows. If no search is broken off, the check reports what
it reports under each greater limit; whatever the limits are, the checks agree on all but cycles and
broken-off searches; and no search is broken off under a limit that is at least the number of
recorded IDs. -/
theorem limit_only_hides (e : Element) (place : Locator) (options options' : Options) :
    (options.maxCycleDepth ≤ options'.maxCycleDepth →
      (∀ d ∈ e.integrityDefects options place, d.cause.isTooDeep = false) →
        e.integrityDefects options' place = e.integrityDefects options place) ∧
    (e.integrityDefects options' place).filter (!·.cause.isSearched) =
      (e.integrityDefects options place).filter (!·.cause.isSearched) ∧
    ((e.survey place).entries.length ≤ options.maxCycleDepth →
      ∀ d ∈ e.integrityDefects options place, d.cause.isTooDeep = false) := by
  refine ⟨?_, ?_, ?_⟩
  · intro hle hdeep
    have hrelation (r : Relation) :
        (e.survey place).relationDefects options'.maxCycleDepth r =
          (e.survey place).relationDefects options.maxCycleDepth r :=
      Survey.edgeDefects_of_le hle fun d hd =>
        hdeep d (mem_integrityDefects.2 (.inr (.inr (.inr ⟨r, hd⟩))))
    unfold integrityDefects Survey.allDefects
    rw [hrelation, hrelation]
  · unfold integrityDefects Survey.allDefects Survey.relationDefects
    simp only [List.filter_append, Survey.filter_edgeDefects]
  · intro hlimit d hd
    rcases mem_integrityDefects.1 hd with hd | hd | hd | ⟨r, hd⟩
    · exact Defect.isTooDeep_of_stage (by rw [stage_of_mem_survey_defects hd]; nofun)
    · exact Defect.isTooDeep_of_stage (by rw [Survey.stage_of_mem_referenceDefects hd]; nofun)
    · exact Defect.isTooDeep_of_stage (by rw [Survey.stage_of_mem_associationDefects hd]; nofun)
    · exact not_tooDeep_of_entries hlimit hd

/-- A region whose state owns a region again. -/
def nest : Element :=
  .region { id := "r", states := [{ id := "s", type := .state, regions := [{ id := "q" }] }] }

/-- With a limit of one, a search in the nest is broken off; with two, none is, and neither is it
with three, the number of recorded IDs. -/
theorem nest_limits :
    ((nest.integrityDefects { maxCycleDepth := 1 } []).any (·.cause.isTooDeep)) = true ∧
    ((nest.integrityDefects { maxCycleDepth := 2 } []).any (·.cause.isTooDeep)) = false ∧
    (nest.survey []).entries.length = 3 ∧
    nest.integrityDefects { maxCycleDepth := 9 } [] =
      nest.integrityDefects { maxCycleDepth := 2 } [] ∧
    (nest.integrityDefects { maxCycleDepth := 1 } []).filter (!·.cause.isSearched) =
      (nest.integrityDefects { maxCycleDepth := 2 } []).filter (!·.cause.isSearched) ∧
    ∀ d ∈ nest.integrityDefects { maxCycleDepth := 3 } [], d.cause.isTooDeep = false := by
  have hdeep : ((nest.integrityDefects { maxCycleDepth := 2 } []).any (·.cause.isTooDeep)) =
      false := by cbv
  have hlength : (nest.survey []).entries.length = 3 := by cbv
  refine ⟨by cbv, hdeep, hlength, ?_, ?_, ?_⟩
  · exact (nest.limit_only_hides [] _ _).1 (by decide) (by simpa using hdeep)
  · exact (nest.limit_only_hides [] _ _).2.1
  · exact (nest.limit_only_hides [] { maxCycleDepth := 3 } {}).2.2 (by rw [hlength])

end Element

end Statechart
