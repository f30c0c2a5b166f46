import Mathlib.Logic.Basic
import Statechart.Graph.Search

/-! The moves of a search. A step ends the search, or it finishes a node, passes over a successor
that was expanded before, or goes down to one that was not. A run comes to a last state, so what
every move keeps holds there, where the answer is given. -/

namespace Statechart

namespace Search

/-- The steps after which a search goes on. -/
inductive Move (g : Digraph) (target : String) (limit : Nat) : State → State → Prop where
  | pop {node : String} {below : List Frame} {fresh expanded : List String} :
    Move g target limit ⟨⟨node, []⟩ :: below, fresh, expanded⟩ ⟨below, fresh, expanded⟩
  | skip {node child : String} {rest : List String} {below : List Frame}
    {fresh expanded : List String} (htarget : child ≠ target) (hfresh : child ∉ fresh) :
    Move g target limit ⟨⟨node, child :: rest⟩ :: below, fresh, expanded⟩
      ⟨⟨node, rest⟩ :: below, fresh, expanded⟩
  | push {node child : String} {rest : List String} {below : List Frame}
    {fresh expanded : List String} (htarget : child ≠ target) (hfresh : child ∈ fresh)
    (hlimit : below.length + 1 < limit) :
    Move g target limit ⟨⟨node, child :: rest⟩ :: below, fresh, expanded⟩
      (State.expand g ⟨⟨node, rest⟩ :: below, fresh, expanded⟩ child)

/-- The states in which a search ends, with its answer. -/
inductive Stop (target : String) (limit : Nat) : State → Outcome → Prop where
  | clear {fresh expanded : List String} : Stop target limit ⟨[], fresh, expanded⟩ .clear
  | found {node : String} {rest : List String} {below : List Frame}
    {fresh expanded : List String} :
    Stop target limit ⟨⟨node, target :: rest⟩ :: below, fresh, expanded⟩
      (.found (((⟨node, rest⟩ :: below : List Frame).map (·.node)).reverse ++ [target]))
  | tooDeep {node child : String} {rest : List String} {below : List Frame}
    {fresh expanded : List String} (htarget : child ≠ target) (hfresh : child ∈ fresh)
    (hlimit : limit ≤ below.length + 1) :
    Stop target limit ⟨⟨node, child :: rest⟩ :: below, fresh, expanded⟩
      (.tooDeep (((⟨node, rest⟩ :: below : List Frame).map (·.node)).reverse ++ [child]))

variable {g : Digraph} {target : String} {limit : Nat} {s t : State} {outcome : Outcome}

theorem move_or_stop (g : Digraph) (target : String) (limit : Nat) (s : State) :
    (∃ t, step g target limit s = .inr t ∧ Move g target limit s t) ∨
      ∃ outcome, step g target limit s = .inl outcome ∧ Stop target limit s outcome := by
  obtain ⟨stack, fresh, expanded⟩ := s
  match stack with
  | [] => exact .inr ⟨_, rfl, .clear⟩
  | ⟨node, []⟩ :: below => exact .inl ⟨_, rfl, .pop⟩
  | ⟨node, child :: rest⟩ :: below =>
    unfold step
    simp only [List.length_cons]
    by_cases htarget : child = target
    · rw [if_pos htarget]
      subst htarget
      exact .inr ⟨_, rfl, .found⟩
    rw [if_neg htarget]
    by_cases hfresh : child ∈ fresh
    · rw [if_neg (not_not.2 hfresh)]
      by_cases hlimit : limit ≤ below.length + 1
      · rw [if_pos hlimit]
        exact .inr ⟨_, rfl, .tooDeep htarget hfresh hlimit⟩
      · rw [if_neg hlimit]
        exact .inl ⟨_, rfl, .push htarget hfresh (by omega)⟩
    · rw [if_pos hfresh]
      exact .inl ⟨_, rfl, .skip htarget hfresh⟩

theorem move_of_step (h : step g target limit s = .inr t) : Move g target limit s t := by
  rcases move_or_stop g target limit s with ⟨t', hstep, hmove⟩ | ⟨outcome, hstep, -⟩
  · cases h.symm.trans hstep
    exact hmove
  · cases h.symm.trans hstep

theorem stop_of_step (h : step g target limit s = .inl outcome) :
    Stop target limit s outcome := by
  rcases move_or_stop g target limit s with ⟨t, hstep, -⟩ | ⟨outcome', hstep, hstop⟩
  · cases h.symm.trans hstep
  · cases h.symm.trans hstep
    exact hstop

theorem run_of_inl (h : step g target limit s = .inl outcome) :
    run g target limit s = (outcome, s.expanded) := by
  rw [run]; split <;> simp_all

theorem run_of_inr (h : step g target limit s = .inr t) :
    run g target limit s = run g target limit t := by
  rw [run]; split <;> simp_all

/-- What every move keeps holds in the state in which a run ends. -/
theorem exists_last (g : Digraph) (target : String) (limit : Nat) {P : State → Prop}
    (hmove : ∀ s t, P s → Move g target limit s t → P t) (hs : P s) :
    ∃ last, P last ∧ Stop target limit last (run g target limit s).1 ∧
      last.expanded = (run g target limit s).2 := by
  induction s using Search.run.induct g target limit with
  | case1 s outcome hstep =>
    rw [run_of_inl hstep]
    exact ⟨s, hs, stop_of_step hstep, rfl⟩
  | case2 s next hstep ih =>
    rw [run_of_inr hstep]
    exact ih (hmove s next hs (move_of_step hstep))

/-- The state in which a search begins. -/
def State.initial (g : Digraph) (start : String) : State :=
  State.expand g ⟨[], g.edges.map (·.2), []⟩ start

end Search

namespace Digraph

theorem search_self (g : Digraph) (target : String) (limit : Nat) :
    g.search target target limit = (.found [target], []) := if_pos rfl

theorem search_of_ne (g : Digraph) {start target : String} (limit : Nat) (h : start ≠ target) :
    g.search start target limit = Search.run g target limit (.initial g start) := if_neg h

end Digraph

end Statechart
