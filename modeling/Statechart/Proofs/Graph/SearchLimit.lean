import Statechart.Proofs.Graph.SearchOutcome

/-! Searches under a greater limit. The limit is looked at in one place only, before a search goes
down to a node: there it is broken off, or it goes on as it would under a greater limit. So a search
that is not broken off has one answer under all greater limits. -/

namespace Statechart

namespace Search

variable {g : Digraph} {target : String} {limit limit' : Nat}

theorem step_of_le (hle : limit ≤ limit') (s : State) :
    (∃ path, step g target limit s = .inl (.tooDeep path)) ∨
      step g target limit' s = step g target limit s := by
  obtain ⟨stack, fresh, expanded⟩ := s
  match stack with
  | [] => exact .inr rfl
  | ⟨node, []⟩ :: below => exact .inr rfl
  | ⟨node, child :: rest⟩ :: below =>
    unfold step
    simp only [List.length_cons]
    by_cases htarget : child = target
    · rw [if_pos htarget, if_pos htarget]
      exact .inr rfl
    by_cases hfresh : child ∈ fresh
    · by_cases hlimit : limit ≤ below.length + 1
      · rw [if_neg htarget, if_neg (not_not.2 hfresh), if_pos hlimit]
        exact .inl ⟨_, rfl⟩
      · have hlimit' : ¬ limit' ≤ below.length + 1 := by omega
        rw [if_neg hlimit, if_neg hlimit']
        exact .inr rfl
    · rw [if_neg htarget, if_neg htarget, if_pos hfresh, if_pos hfresh]
      exact .inr rfl

theorem run_of_le (hle : limit ≤ limit') (s : State) :
    (∃ path, (run g target limit s).1 = .tooDeep path) ∨
      run g target limit' s = run g target limit s := by
  induction s using Search.run.induct g target limit with
  | case1 s outcome hstep =>
    rw [run_of_inl hstep]
    rcases step_of_le hle s with ⟨path, hdeep⟩ | hsame
    · exact .inl ⟨path, Sum.inl.inj (hstep.symm.trans hdeep)⟩
    · exact .inr (run_of_inl (hsame.trans hstep))
  | case2 s next hstep ih =>
    rcases step_of_le hle s with ⟨path, hdeep⟩ | hsame
    · cases hstep.symm.trans hdeep
    · rw [run_of_inr hstep, run_of_inr (hsame.trans hstep)]
      exact ih

end Search

/-- A search is broken off, or its answer is the one under a greater limit. -/
theorem Digraph.findPath_of_le {limit limit' : Nat} (hle : limit ≤ limit') (g : Digraph)
    (start target : String) :
    (∃ path, g.findPath start target limit = .tooDeep path) ∨
      g.findPath start target limit' = g.findPath start target limit := by
  unfold findPath search
  by_cases h : start = target
  · rw [if_pos h, if_pos h]
    exact .inr rfl
  · rw [if_neg h, if_neg h]
    exact (Search.run_of_le hle _).imp_right (congrArg Prod.fst)

end Statechart
