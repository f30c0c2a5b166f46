import Mathlib
import Statechart.Proofs.Graph.CycleKey
import Statechart.Proofs.Graph.SearchOutcome
import Statechart.Proofs.Integrity.Stage

/-! Cycle reports: each is a cycle, no cycle is reported twice, and unless a search was broken off
every edge on a cycle is a step of a report. Edges are checked one after the other with the keys of
the cycles reported so far, so an edge without a report of its own has its cycle among them. -/

namespace Statechart

namespace Survey

variable {s : Survey} {limit : Nat} {r : Relation}

theorem found_closes {a b : String} {path : List String}
    (h : (s.graph r).findPath b a limit = .found path) :
    ∃ l, a :: path = a :: (l ++ [a]) ∧ (a :: l).Nodup ∧ path.IsChain (s.graph r).Edge ∧
      path.head? = some b := by
  have hspec := (s.graph r).findPath_spec b a limit
  rw [h] at hspec
  obtain ⟨⟨hfirst, hlast, hnodup, hchain⟩, -⟩ := hspec
  obtain ⟨l, rfl⟩ := List.getLast?_eq_some_iff.1 hlast
  refine ⟨l, rfl, ?_, hchain, hfirst⟩
  exact (List.perm_append_singleton a l).nodup_iff.1 hnodup

/-- The second relation runs in circles together with the first, the first by itself. -/
theorem mem_graph_of_mem_edges {r' : Relation} {d : String × String} (h : d ∈ s.edges r')
    (hr : r = .containment → r' = .containment) : d ∈ (s.graph r).edges := by
  cases r with
  | containment =>
    cases hr rfl
    exact h
  | submachine =>
    cases r' with
    | containment => exact List.mem_append_left _ h
    | submachine => exact List.mem_append_right _ h

theorem cycles_clashDefects (a b : String) : Defects.cycles (s.clashDefects r a b) r = [] := by
  apply List.eq_nil_iff_forall_not_mem.2
  intro nodes hnodes
  obtain ⟨d, hd, hcause⟩ := Defects.mem_cycles.1 hnodes
  obtain ⟨type, hclash⟩ := clashDefects_cause hd
  rw [hcause] at hclash
  cases r <;> cases hclash

theorem cycles_edgeDefects_cons (a b : String) (rest : List (String × String))
    (seen : List (List String)) :
    Defects.cycles (s.edgeDefects limit r ((a, b) :: rest) seen) r =
      match (s.graph r).findPath b a limit with
      | .found path =>
        if cycleKey (a :: path) ∈ seen then
          Defects.cycles (s.edgeDefects limit r rest seen) r
        else
          (a :: path) ::
            Defects.cycles (s.edgeDefects limit r rest (cycleKey (a :: path) :: seen)) r
      | _ => Defects.cycles (s.edgeDefects limit r rest seen) r := by
  have hclash := cycles_clashDefects (s := s) (r := r) a b
  unfold Defects.cycles at hclash ⊢
  rw [edgeDefects, List.filterMap_append, hclash, List.nil_append]
  split
  · simp_all
  · next path hpath =>
    rw [hpath, List.filterMap_cons_none (by rw [defectAt_cause]; rfl)]
  · next path hpath =>
    rw [hpath]
    simp only
    split
    · rfl
    · rw [List.filterMap_cons_some (b := a :: path) (by simp [defectAt_cause, Defect.cycle?])]

theorem cycles_sound {edges : List (String × String)} {seen : List (List String)}
    {nodes : List String} (h : nodes ∈ Defects.cycles (s.edgeDefects limit r edges seen) r) :
    cycleKey nodes ∉ seen ∧ ∃ a b path, (a, b) ∈ edges ∧
      (s.graph r).findPath b a limit = .found path ∧ nodes = a :: path := by
  induction edges generalizing seen with
  | nil => cases h
  | cons edge rest ih =>
    obtain ⟨a, b⟩ := edge
    have tail {seen'} (h : nodes ∈ Defects.cycles (s.edgeDefects limit r rest seen') r)
        (hsub : ∀ k ∈ seen, k ∈ seen') : cycleKey nodes ∉ seen ∧ ∃ x y path,
          (x, y) ∈ (a, b) :: rest ∧ (s.graph r).findPath y x limit = .found path ∧
            nodes = x :: path := by
      obtain ⟨hkey, x, y, path, hmem, hpath⟩ := ih h
      exact ⟨fun hk => hkey (hsub _ hk), x, y, path, .tail _ hmem, hpath⟩
    rw [cycles_edgeDefects_cons] at h
    split at h
    · next path hpath =>
      split at h
      · exact tail h fun _ hk => hk
      · next hkey =>
        rcases List.mem_cons.1 h with rfl | h
        · exact ⟨hkey, a, b, path, .head _, hpath, rfl⟩
        · exact tail h fun _ hk => .tail _ hk
    · exact tail h fun _ hk => hk

theorem cycles_distinct (edges : List (String × String)) (seen : List (List String)) :
    (Defects.cycles (s.edgeDefects limit r edges seen) r).Pairwise
      fun c d => cycleKey c ≠ cycleKey d := by
  induction edges generalizing seen with
  | nil => exact .nil
  | cons edge rest ih =>
    obtain ⟨a, b⟩ := edge
    rw [cycles_edgeDefects_cons]
    split
    · split
      · exact ih seen
      · refine List.pairwise_cons.2 ⟨?_, ih _⟩
        intro d hd heq
        exact (cycles_sound hd).1 (heq ▸ .head _)
    · exact ih seen

theorem cycles_complete {edges : List (String × String)} {a b : String} (h : (a, b) ∈ edges)
    {path : List String} (hpath : (s.graph r).findPath b a limit = .found path)
    (seen : List (List String)) :
    cycleKey (a :: path) ∈ seen ∨
      ∃ nodes ∈ Defects.cycles (s.edgeDefects limit r edges seen) r,
        cycleKey nodes = cycleKey (a :: path) := by
  induction edges generalizing seen with
  | nil => cases h
  | cons edge rest ih =>
    obtain ⟨x, y⟩ := edge
    rw [cycles_edgeDefects_cons]
    rcases List.mem_cons.1 h with heq | hrest
    · cases heq
      rw [hpath]
      simp only
      split
      · next hkey => exact .inl hkey
      · exact .inr ⟨a :: path, .head _, rfl⟩
    · split
      · next path' _ =>
        split
        · exact ih hrest seen
        · -- the key of the new report is the one looked for, or the rest of the edges decides
          rcases ih hrest (cycleKey (x :: path') :: seen) with hkey | ⟨nodes, hnodes, hkey⟩
          · rcases List.mem_cons.1 hkey with hkey | hkey
            · exact .inr ⟨x :: path', .head _, hkey.symm⟩
            · exact .inl hkey
          · exact .inr ⟨nodes, .tail _ hnodes, hkey⟩
      · exact ih hrest seen

theorem tooDeep_mem_edgeDefects {edges : List (String × String)} {a b : String}
    (h : (a, b) ∈ edges) {path : List String}
    (hpath : (s.graph r).findPath b a limit = .tooDeep path) (seen : List (List String)) :
    s.defectAt a (.tooDeep r a limit path) ∈ s.edgeDefects limit r edges seen := by
  induction edges generalizing seen with
  | nil => cases h
  | cons edge rest ih =>
    obtain ⟨x, y⟩ := edge
    rw [edgeDefects]
    refine List.mem_append_right _ ?_
    rcases List.mem_cons.1 h with heq | hrest
    · cases heq
      rw [hpath]
      exact .head _
    · split
      · exact ih hrest seen
      · exact .tail _ (ih hrest seen)
      · simp only
        split
        · exact ih hrest seen
        · exact .tail _ (ih hrest _)

theorem steps_of_key_eq {a b : String} {path nodes : List String}
    (hpath : (s.graph r).findPath b a limit = .found path)
    (hnodes : ∃ c d path', (s.graph r).findPath d c limit = .found path' ∧ nodes = c :: path')
    (hkey : cycleKey nodes = cycleKey (a :: path)) : (a, b) ∈ steps nodes := by
  obtain ⟨c, d, path', hpath', rfl⟩ := hnodes
  obtain ⟨l, hl, hnodup, -, hhead⟩ := found_closes hpath
  obtain ⟨l', hl', -, -, -⟩ := found_closes hpath'
  have hstep : (a, b) ∈ steps (a :: path) := by
    obtain ⟨tail, rfl⟩ := List.head?_eq_some_iff.1 hhead
    exact .head _
  rw [hl] at hkey hstep
  rw [hl'] at hkey ⊢
  rw [cycleKey_close, cycleKey_close] at hkey
  exact mem_steps_of_isRotated ((rotateToLeast_eq_iff hnodup).1 hkey.symm) hstep

/-- An edge whose end leads back to its start is a step of a report, or a search was broken off. -/
theorem reported_of_reaches (limit : ℕ) {a b : String} (h : (a, b) ∈ s.edges r)
    (hback : (s.graph r).Reaches b a) :
    (∃ nodes ∈ Defects.cycles (s.relationDefects limit r) r, (a, b) ∈ steps nodes) ∨
      ∃ path, s.defectAt a (.tooDeep r a limit path) ∈ s.relationDefects limit r := by
  cases hpath : (s.graph r).findPath b a limit with
  | clear =>
    have hspec := (s.graph r).findPath_spec b a limit
    rw [hpath] at hspec
    exact absurd hback hspec
  | found path =>
    rcases cycles_complete h hpath [] with hkey | ⟨nodes, hnodes, hkey⟩
    · cases hkey
    · obtain ⟨-, c, d, path', -, hpath', rfl⟩ := cycles_sound hnodes
      exact .inl ⟨_, hnodes, steps_of_key_eq hpath ⟨c, d, path', hpath', rfl⟩ hkey⟩
  | tooDeep path => exact .inr ⟨path, tooDeep_mem_edgeDefects h hpath []⟩

theorem reported_closed {nodes : List String}
    (h : nodes ∈ Defects.cycles (s.relationDefects limit r) r) :
    (s.graph r).ClosedWalk nodes ∧ nodes.dropLast.Nodup ∧
      ∃ d ∈ s.edges r, (steps nodes).head? = some d := by
  obtain ⟨-, a, b, path, hmem, hpath, rfl⟩ := cycles_sound h
  obtain ⟨l, hl, hnodup, hchain, hhead⟩ := found_closes hpath
  obtain ⟨tail, rfl⟩ := List.head?_eq_some_iff.1 hhead
  refine ⟨⟨⟨a, l, hl⟩, ?_⟩, ?_, (a, b), hmem, rfl⟩
  · exact List.isChain_cons_cons.2 ⟨mem_graph_of_mem_edges hmem id, hchain⟩
  · rw [hl, ← List.cons_append, List.dropLast_concat]
    exact hnodup

/-- Two reports are not one cycle opened at two nodes. -/
theorem reported_distinct (s : Survey) (limit : Nat) (r : Relation) :
    (Defects.cycles (s.relationDefects limit r) r).Pairwise
      fun c d => ¬ c.dropLast ~r d.dropLast := by
  refine (cycles_distinct _ []).imp_of_mem fun {c d} hc hd hne hrot => hne ?_
  obtain ⟨-, a, b, path, -, hpath, rfl⟩ := cycles_sound hc
  obtain ⟨-, a', b', path', -, hpath', rfl⟩ := cycles_sound hd
  obtain ⟨l, hl, hnodup, -, -⟩ := found_closes hpath
  obtain ⟨l', hl', -, -, -⟩ := found_closes hpath'
  rw [hl, hl', ← List.cons_append, ← List.cons_append, List.dropLast_concat,
    List.dropLast_concat] at hrot
  rw [hl, hl', cycleKey_close, cycleKey_close]
  exact (rotateToLeast_eq_iff hnodup).2 hrot

end Survey

namespace Element

theorem tooDeep_mem_integrityDefects {e : Element} {options : Options} {place : Locator}
    {r : Relation} {a : String} {path : List String}
    (h : (e.survey place).defectAt a (.tooDeep r a options.maxCycleDepth path) ∈
      (e.survey place).relationDefects options.maxCycleDepth r) :
    (e.survey place).defectAt a (.tooDeep r a options.maxCycleDepth path) ∈
      e.integrityDefects options place :=
  mem_integrityDefects.2 (.inr (.inr (.inr ⟨r, h⟩)))

/-- What cycle reports say and what their absence says. -/
theorem cycle_reports (e : Element) (options : Options) (place : Locator) :
    let s := e.survey place
    let defects := e.integrityDefects options place
    -- each report is a cycle, and its first step is an edge of the relation reported
    (∀ r, ∀ nodes ∈ defects.cycles r, (s.graph r).ClosedWalk nodes ∧ nodes.dropLast.Nodup ∧
      ∃ d ∈ s.edges r, (steps nodes).head? = some d) ∧
    (∀ r, (defects.cycles r).Pairwise fun c d => ¬ c.dropLast ~r d.dropLast) ∧
    ((∀ d ∈ defects, d.cause.isTooDeep = false) →
      (∀ r walk, (s.graph r).ClosedWalk walk → ∀ d ∈ steps walk, d ∈ s.edges r →
        ∃ nodes ∈ defects.cycles r, d ∈ steps nodes) ∧
      ((∀ r, defects.cycles r = []) → (s.containment ++ s.standIn).Acyclic)) := by
  intro s defects
  have hcycles (r) : defects.cycles r =
      Defects.cycles (s.relationDefects options.maxCycleDepth r) r :=
    cycles_integrityDefects e options place r
  refine ⟨?_, ?_, ?_⟩
  · intro r nodes hnodes
    exact Survey.reported_closed (hcycles r ▸ hnodes)
  · intro r
    rw [hcycles r]
    exact s.reported_distinct _ r
  · intro hdeep
    have hreport (r walk) (hwalk : (s.graph r).ClosedWalk walk) (d) (hd : d ∈ steps walk)
        (hedge : d ∈ s.edges r) : ∃ nodes ∈ defects.cycles r, d ∈ steps nodes := by
      rw [hcycles r]
      rcases Survey.reported_of_reaches _ hedge (hwalk.reaches hd) with h | ⟨path, hpath⟩
      · exact h
      · have := hdeep _ (tooDeep_mem_integrityDefects hpath)
        rw [Survey.defectAt_cause] at this
        cases this
    refine ⟨hreport, ?_⟩
    intro hnone walk hwalk
    -- a closed walk through an edge to a machine is one of the second relation, any other one of
    -- the first
    by_cases hstand : ∃ d ∈ steps walk, d ∈ s.standIn.edges
    · obtain ⟨d, hd, hedge⟩ := hstand
      obtain ⟨nodes, hnodes, -⟩ := hreport .submachine walk hwalk d hd hedge
      rw [hnone] at hnodes
      cases hnodes
    · have hown : ∀ d ∈ steps walk, d ∈ s.containment.edges := by
        intro d hd
        rcases List.mem_append.1 (Digraph.isChain_iff_steps.1 hwalk.2 d hd) with h | h
        · exact h
        · exact absurd ⟨d, hd, h⟩ hstand
      obtain ⟨d, hd⟩ := hwalk.exists_step
      have hclosed : s.containment.ClosedWalk walk :=
        ⟨hwalk.1, Digraph.isChain_iff_steps.2 hown⟩
      obtain ⟨nodes, hnodes, -⟩ := hreport .containment walk hclosed d hd (hown d hd)
      rw [hnone] at hnodes
      cases hnodes

/-- A machine with a state that stands for a machine with the ID given. -/
def echo (id : String) : Element := .stateMachine {
  id := "m"
  regions := [{ id := "r", states := [
    { id := "s", type := .state, isSubmachineState := true, submachine := some { id } }] }] }

/-- The state that stands for the machine around it is reported; for another machine no cycle is. -/
theorem echo_reported :
    (∃ nodes ∈ ((echo "m").integrityDefects {} []).cycles .submachine, ("s", "m") ∈ steps nodes) ∧
      (((echo "n").survey []).containment ++ ((echo "n").survey []).standIn).Acyclic := by
  have hdeep : ∀ d ∈ (echo "m").integrityDefects {} [], d.cause.isTooDeep = false := by
    have : ((echo "m").integrityDefects {} []).all (!·.cause.isTooDeep) = true := by cbv
    simpa using this
  have hdeep' : ∀ d ∈ (echo "n").integrityDefects {} [], d.cause.isTooDeep = false := by
    have : ((echo "n").integrityDefects {} []).all (!·.cause.isTooDeep) = true := by cbv
    simpa using this
  have hgraph : (((echo "m").survey []).graph .submachine).edges =
      [("m", "r"), ("r", "s"), ("s", "m")] := by cbv
  have hedges : ((echo "m").survey []).edges .submachine = [("s", "m")] := by cbv
  have hwalk : (((echo "m").survey []).graph .submachine).ClosedWalk ["r", "s", "m", "r"] := by
    refine ⟨⟨"r", ["s", "m"], rfl⟩, ?_⟩
    simp [Digraph.Edge, hgraph]
  constructor
  · exact ((cycle_reports (echo "m") {} []).2.2 hdeep).1 .submachine _ hwalk ("s", "m") (by decide)
      (by rw [hedges]; decide)
  · apply ((cycle_reports (echo "n") {} []).2.2 hdeep').2
    intro r
    cases r <;> cbv

end Element

end Statechart
