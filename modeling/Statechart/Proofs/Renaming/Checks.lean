import Statechart.Proofs.Integrity.CycleReport
import Statechart.Proofs.Location.Findings
import Statechart.Proofs.Renaming.Survey

/-! The checks on a recast survey. They report the recast defects in the same order. A defect is
located at the entry for its ID, so this needs that there is one: the sources of all edges are
recorded, and elements are associated both ways. The keys of the cycles reported so far are other
keys than before, but the same cycles are new. -/

namespace Statechart

namespace Recast

variable (T : Recast) (s : Survey)

theorem referenceDefects_survey :
    (T.survey s).referenceDefects = s.referenceDefects.map T.located := by
  unfold Survey.referenceDefects
  rw [survey, List.filterMap_map, List.map_filterMap]
  apply List.filterMap_congr
  intro r _
  cases htarget : r.target with
  | none => simp [reference, htarget, located, Located.recast, Defect.recast]
  | some id =>
    have hentry : (Survey.entry? (T.survey s) (T.ids id)).isSome = (s.entry? id).isSome := by
      rw [lookup_survey, Option.isSome_map]
    simp only [Function.comp_apply, reference, htarget, Option.map_some]
    rw [survey] at hentry
    simp only [hentry]
    split <;> rfl

variable {s}

theorem defectAt_survey {id : String} (h : (s.entry? id).isSome) (cause : Defect) :
    (T.survey s).defectAt (T.ids id) (cause.recast T.ids T.base) =
      T.located (s.defectAt id cause) := by
  obtain ⟨x, hx⟩ := Option.isSome_iff_exists.1 h
  unfold Survey.defectAt
  rw [lookup_survey, hx]
  simp only [Option.map_some, type_encounter]
  rfl

/-- The check of one association between recorded elements, which may be missing the way back. -/
theorem associationDefects_survey
    (hback : ∀ a b, (a, b) ∈ s.association.edges → (b, a) ∈ s.association.edges) :
    (T.survey s).associationDefects = s.associationDefects.map T.located := by
  have hedges : (T.survey s).association.edges =
      s.association.edges.map (Prod.map T.ids T.ids) := rfl
  unfold Survey.associationDefects
  rw [hedges, List.flatMap_map, List.map_flatMap]
  apply List.flatMap_congr
  rintro ⟨a, b⟩ hab
  have hcontains : s.association.contains b a = true := Digraph.contains_iff.2 (hback a b hab)
  have hcontains' : (T.survey s).association.contains (T.ids b) (T.ids a) = true := by
    rw [← hcontains]
    exact s.association.contains_map T.ids.injective b a
  simp only [Prod.map_apply, hcontains, hcontains', if_true, List.nil_append, lookup_survey]
  cases hx : s.entry? a with
  | none => rfl
  | some x =>
    cases hy : s.entry? b with
    | none => rfl
    | some y =>
      have hsome : (s.entry? a).isSome := by rw [hx]; rfl
      have hat := T.defectAt_survey hsome (.cannotReference a y.type b)
      simp only [Option.map_some, type_encounter]
      split
      · rfl
      · rw [List.map_singleton, ← hat]
        rfl

theorem edges_survey (r : Relation) :
    (T.survey s).edges r = (s.edges r).map (Prod.map T.ids T.ids) := by
  cases r <;> rfl

theorem graph_survey (r : Relation) : (T.survey s).graph r = (s.graph r).map T.ids := by
  cases r with
  | containment => rfl
  | submachine => exact (Digraph.map_append _ _).symm

theorem clashDefects_survey (r : Relation) (a b : String) :
    (T.survey s).clashDefects r (T.ids a) (T.ids b) = (s.clashDefects r a b).map T.located := by
  unfold Survey.clashDefects
  rw [lookup_survey, lookup_survey]
  cases hx : s.entry? a with
  | none => rfl
  | some x =>
    cases hy : s.entry? b with
    | none => rfl
    | some y =>
      have hsome : (s.entry? a).isSome := by rw [hx]; rfl
      have hat := T.defectAt_survey hsome (r.clash a b y.type)
      have hclash : (r.clash a b y.type).recast T.ids T.base =
          r.clash (T.ids a) (T.ids b) y.type := by
        cases r <;> rfl
      simp only [Option.map_some, type_encounter]
      split
      · rfl
      · rw [List.map_singleton, ← hat, hclash]

/-- A walk that comes back to its start and to no other node twice. -/
def IsRound (nodes : List String) : Prop := ∃ a l, nodes = a :: (l ++ [a]) ∧ (a :: l).Nodup

/-- Whether a cycle has the key of one of some others does not depend on the IDs. -/
theorem key_mem_iff {nodes : List String} (hnodes : IsRound nodes) {rounds : List (List String)}
    (hrounds : ∀ round ∈ rounds, IsRound round) :
    cycleKey (nodes.map T.ids) ∈ rounds.map (fun round => cycleKey (round.map T.ids)) ↔
      cycleKey nodes ∈ rounds.map cycleKey := by
  obtain ⟨a, l, rfl, hl⟩ := hnodes
  simp only [List.mem_map]
  apply exists_congr
  intro round
  apply and_congr_right
  intro hround
  obtain ⟨b, k, rfl, -⟩ := hrounds round hround
  rw [eq_comm, cycleKey_map_eq_iff T.ids.injective hl, eq_comm]

theorem edgeDefects_survey (limit : ℕ) (r : Relation) {edges : List (String × String)}
    (hsources : ∀ d ∈ edges, (s.entry? d.1).isSome) (rounds : List (List String))
    (hrounds : ∀ round ∈ rounds, IsRound round) :
    (T.survey s).edgeDefects limit r (edges.map (Prod.map T.ids T.ids))
        (rounds.map fun round => cycleKey (round.map T.ids)) =
      (s.edgeDefects limit r edges (rounds.map cycleKey)).map T.located := by
  induction edges generalizing rounds with
  | nil => rfl
  | cons edge rest ih =>
    obtain ⟨a, b⟩ := edge
    have hrest := fun d hd => hsources d (.tail _ hd)
    have hsource : (s.entry? a).isSome := hsources (a, b) (.head _)
    have hpath : ((T.survey s).graph r).findPath (T.ids b) (T.ids a) limit =
        ((s.graph r).findPath b a limit).map T.ids := by
      rw [graph_survey]
      exact Digraph.findPath_map T.ids.injective _ b a limit
    simp only [List.map_cons, Prod.map_apply, Survey.edgeDefects, clashDefects_survey, hpath,
      List.map_append]
    congr 1
    cases hfound : (s.graph r).findPath b a limit with
    | clear => exact ih hrest rounds hrounds
    | tooDeep path =>
      have hat := T.defectAt_survey hsource (.tooDeep r a limit path)
      simp only [Search.Outcome.map, List.map_cons, ← hat, ih hrest rounds hrounds]
      rfl
    | found path =>
      obtain ⟨l, hl, hnodup, -⟩ := Survey.found_closes hfound
      have hround : IsRound (a :: path) := ⟨a, l, hl, hnodup⟩
      have hkey := T.key_mem_iff hround hrounds
      simp only [Search.Outcome.map]
      rw [List.map_cons] at hkey
      by_cases hseen : cycleKey (a :: path) ∈ rounds.map cycleKey
      · rw [if_pos hseen, if_pos (hkey.2 hseen)]
        exact ih hrest rounds hrounds
      · have hat := T.defectAt_survey hsource (.cycle r (a :: path))
        have htail := ih hrest ((a :: path) :: rounds)
          (List.forall_mem_cons.2 ⟨hround, hrounds⟩)
        rw [if_neg hseen, if_neg (hkey.not.2 hseen), List.map_cons, ← hat]
        exact congrArg _ htail

theorem relationDefects_survey (limit : ℕ) (r : Relation)
    (hsources : ∀ d ∈ s.edges r, (s.entry? d.1).isSome) :
    (T.survey s).relationDefects limit r = (s.relationDefects limit r).map T.located := by
  have hdefects := T.edgeDefects_survey limit r hsources [] nofun
  rw [← edges_survey] at hdefects
  exact hdefects

/-- The integrity check of a recast element, which itself stands below the base, reports the recast
defects. -/
theorem integrityDefects_element (e : Element) (options : Options) (place : Locator) :
    (T.element e).integrityDefects options (T.base ++ place) =
      (e.integrityDefects options place).map T.located := by
  obtain ⟨met, hreach⟩ := Walk.survey_reachable e place
  have hsources (r : Relation) (d : String × String) (hd : d ∈ (e.survey place).edges r) :
      (Survey.entry? (e.survey place) d.1).isSome := by
    obtain ⟨x, hx, p, -, -, -, rfl⟩ := hreach.edges hd
    exact Survey.entry?_isSome.2 ⟨x, hx, rfl⟩
  unfold Element.integrityDefects Survey.allDefects
  rw [survey_element, referenceDefects_survey, associationDefects_survey T hreach.association_symm,
    relationDefects_survey T _ _ (hsources _), relationDefects_survey T _ _ (hsources _)]
  simp only [List.map_append]
  rfl

end Recast

end Statechart
