import Mathlib
import Statechart.Proofs.Graph.SearchOutcome

/-! What a search costs. A node is expanded once, and only if it is in reach; a search that finds
nothing expands all that is. Each run of the loop uses up a successor that waits on the stack or the
node that it waits on, and these are paid for when the node is expanded, so the expanded nodes and
their successors bound the number of runs. -/

namespace Statechart

namespace Search

variable {g : Digraph} {start target : String} {limit : ℕ} {s t : State}

/-- The answer of a search that runs through its loop at most `n` times. It takes no run to find
that the stack is empty. -/
def runFor (g : Digraph) (target : String) (limit : Nat) :
    Nat → State → Option (Outcome × List String)
  | _, ⟨[], _, expanded⟩ => some (.clear, expanded)
  | 0, _ => none
  | n + 1, s =>
    match step g target limit s with
    | .inl outcome => some (outcome, s.expanded)
    | .inr next => runFor g target limit n next

/-- The successors of some nodes, and the nodes. -/
def cost (g : Digraph) (nodes : List String) : Nat :=
  (nodes.map fun node => (g.successors node).length + 1).sum

/-- The expanded nodes are different and in reach. -/
structure Explored (g : Digraph) (start : String) (s : State) : Prop where
  nodup : s.expanded.Nodup
  reached : ∀ x ∈ s.expanded, g.Reaches start x

theorem explored_start (g : Digraph) (start : String) :
    Explored g start (.initial g start) where
  nodup := List.nodup_singleton start
  reached x hx := by
    rw [List.mem_singleton.1 hx]
    exact .refl

theorem Explored.move (hinv : Inv g start target limit s) (h : Explored g start s)
    (hmove : Move g target limit s t) : Explored g start t := by
  cases hmove with
  | pop => exact ⟨h.nodup, h.reached⟩
  | skip => exact ⟨h.nodup, h.reached⟩
  | @push node child rest below fresh expanded htarget hfresh hlimit =>
    have hnew : child ∉ expanded := ((hinv.fresh child).1 hfresh).2
    have hnode : g.Reaches start node :=
      h.reached node (hinv.onStack ⟨node, child :: rest⟩ (.head _))
    have hedge : g.Edge node child := hinv.rest ⟨node, child :: rest⟩ (.head _) child (.head _)
    have hnodup : (expanded ++ [child]).Nodup := by
      rw [← List.concat_eq_append, List.nodup_concat]
      exact ⟨hnew, h.nodup⟩
    refine ⟨hnodup, ?_⟩
    intro x hx
    rcases List.mem_append.1 hx with hx | hx
    · exact h.reached x hx
    · rw [List.mem_singleton.1 hx]
      exact hnode.tail hedge

/-- A run of the loop uses up one successor or node, and pays for those that it adds. -/
theorem Move.pending (h : Move g target limit s t) :
    pending t.stack + cost g s.expanded + 1 = pending s.stack + cost g t.expanded := by
  cases h with
  | pop =>
    simp only [Search.pending, List.length_nil]
    omega
  | skip =>
    simp only [Search.pending, List.length_cons]
    omega
  | push =>
    simp only [State.expand, Search.pending, cost, List.map_append, List.sum_append,
      List.map_cons, List.map_nil, List.sum_cons, List.sum_nil, List.length_cons]
    omega

theorem Move.expanded_prefix (h : Move g target limit s t) : s.expanded <+: t.expanded := by
  cases h with
  | pop => exact List.prefix_refl _
  | skip => exact List.prefix_refl _
  | push => exact List.prefix_append _ _

theorem cost_le_of_prefix (g : Digraph) {l l' : List String} (h : l <+: l') :
    cost g l ≤ cost g l' := by
  obtain ⟨rest, rfl⟩ := h
  rw [cost, cost, List.map_append, List.sum_append]
  exact Nat.le_add_right _ _

theorem pending_pos {stack : List Frame} (h : stack ≠ []) : 0 < pending stack := by
  obtain ⟨frame, below, rfl⟩ := List.exists_cons_of_ne_nil h
  rw [pending]
  omega

theorem expanded_prefix_run (g : Digraph) (target : String) (limit : ℕ) (s : State) :
    s.expanded <+: (run g target limit s).2 := by
  have hmove : ∀ t u, s.expanded <+: t.expanded → Move g target limit t u →
      s.expanded <+: u.expanded := fun _ _ h hmove => h.trans hmove.expanded_prefix
  obtain ⟨last, hlast, -, hexpanded⟩ := exists_last g target limit hmove (List.prefix_refl _)
  exact hexpanded ▸ hlast

/-- What waits on the stack and what is still to be expanded bound the runs of the loop. -/
theorem runFor_eq (g : Digraph) (target : String) (limit : ℕ) (s : State) {n : ℕ}
    (h : pending s.stack + cost g (run g target limit s).2 ≤ n + cost g s.expanded) :
    runFor g target limit n s = some (run g target limit s) := by
  induction s using Search.run.induct g target limit generalizing n with
  | case1 s outcome hstep =>
    rw [run_of_inl hstep] at h ⊢
    obtain ⟨stack, fresh, expanded⟩ := s
    cases stack with
    | nil =>
      cases hstep
      cases n <;> rfl
    | cons frame below =>
      have hpos := pending_pos (List.cons_ne_nil frame below)
      cases n with
      | zero => simp only at h; omega
      | succ n =>
        rw [runFor, hstep]
        intro fresh expanded heq
        cases heq
  | case2 s next hstep ih =>
    have hmove := move_of_step hstep
    -- the run uses up one, and what it adds to the stack is paid for by what it expands
    have hspent := hmove.pending
    have hle := cost_le_of_prefix g (expanded_prefix_run g target limit next)
    rw [run_of_inr hstep] at h ⊢
    have hpaid : cost g s.expanded ≤ cost g next.expanded :=
      cost_le_of_prefix g hmove.expanded_prefix
    cases n with
    | zero => omega
    | succ n =>
      rw [runFor, hstep]
      · exact ih (by omega)
      · rintro fresh expanded rfl
        cases hstep

end Search

/-- The answer of a search that runs through its loop at most `n` times. -/
def Digraph.searchFor (g : Digraph) (n : Nat) (start target : String) (limit : Nat) :
    Option (Search.Outcome × List String) :=
  if start = target then some (.found [start], [])
  else Search.runFor g target limit n (.initial g start)

/-- A search expands different nodes that are in reach, and never its target. If it finds nothing it
expands all that are in reach. It ends, with no more runs of its loop than the expanded nodes and
their successors are. -/
theorem Digraph.search_expanded (g : Digraph) (start target : String) (limit : ℕ) :
    let answer := (g.search start target limit).1
    let expanded := (g.search start target limit).2
    expanded.Nodup ∧ (∀ x ∈ expanded, g.Reaches start x) ∧ target ∉ expanded ∧
      (start = target → expanded = []) ∧
      (answer = .clear → ∀ x, x ∈ expanded ↔ g.Reaches start x) ∧
      g.searchFor ((expanded.map fun x => (g.successors x).length + 1).sum) start target limit =
        some (answer, expanded) := by
  intro answer expanded
  by_cases hne : start = target
  · subst hne
    have hanswer : answer = .found [start] := congrArg Prod.fst (g.search_self start limit)
    have hexpanded : expanded = [] := congrArg Prod.snd (g.search_self start limit)
    rw [hanswer, hexpanded, searchFor, if_pos rfl]
    exact ⟨List.nodup_nil, nofun, List.not_mem_nil, fun _ => rfl, nofun, rfl⟩
  obtain ⟨last, hinv, hexplored, hstop, hlast⟩ := g.exists_last_of_search limit hne
    (Search.explored_start g start) fun s t hinv hexplored hmove => hexplored.move hinv hmove
  change Search.Stop target limit last answer at hstop
  change last.expanded = expanded at hlast
  refine ⟨hlast ▸ hexplored.nodup, hlast ▸ hexplored.reached, hlast ▸ hinv.missed,
    fun heq => absurd heq hne, ?_, ?_⟩
  · intro hclear x
    rw [hclear] at hstop
    cases hstop with
    | clear => exact hlast ▸ ⟨hexplored.reached x, hinv.expanded_of_reaches rfl⟩
  · -- all that a search begins with is the cost of its start
    have hbegin : Search.pending (Search.State.initial g start).stack =
        Search.cost g (Search.State.initial g start).expanded := by
      simp [Search.State.initial, Search.State.expand, Search.pending, Search.cost]
    have hruns := Search.runFor_eq g target limit (.initial g start) (n := Search.cost g expanded)
    rw [← g.search_of_ne limit hne] at hruns
    rw [searchFor, if_neg hne]
    exact hruns (by rw [hbegin, Nat.add_comm])

/-- Two ways from one node to another, from which an edge leads back. -/
def Digraph.ring : Digraph :=
  ⟨[("m", "a"), ("m", "b"), ("a", "n"), ("b", "n"), ("n", "m")]⟩

/-- A search for a node that is not there expands all four, with nine runs of its loop. -/
theorem Digraph.ring_expanded :
    (∀ x, ring.Reaches "m" x ↔ x ∈ ["m", "a", "n", "b"]) ∧
      ring.searchFor 9 "m" "z" 100 = some (.clear, ["m", "a", "n", "b"]) := by
  have hsearch : ring.search "m" "z" 100 = (.clear, ["m", "a", "n", "b"]) := by cbv
  obtain ⟨-, -, -, -, hall, hruns⟩ := search_expanded ring "m" "z" 100
  rw [hsearch] at hall hruns
  exact ⟨fun x => (hall rfl x).symm, hruns⟩

end Statechart
