import Statechart.Graph.Basic

/-! Depth-first search for a path between two nodes, with a ceiling on the number of nodes on the
path. The search is a machine: `step` does one thing (finish a node, pass over a successor, or go
down to one) and `run` repeats it. A node is expanded at most once, so what is left to do shrinks
with every step: either fewer nodes are unexpanded, or fewer successors are waiting on the stack. -/

namespace Statechart

namespace Search

inductive Outcome where
  /-- There is no path. -/
  | clear
  /-- A path, both ends included. -/
  | found (path : List String)
  /-- The path that would have passed the ceiling, with the node that did not fit. -/
  | tooDeep (path : List String)
deriving DecidableEq, Repr

/-- A node on the current path and those of its successors that were not yet looked at. -/
structure Frame where
  node : String
  rest : List String
deriving DecidableEq, Repr

structure State where
  /-- The current path, its last node first. -/
  stack : List Frame
  /-- The nodes that an edge leads to and that were not expanded so far. -/
  fresh : List String
  /-- The nodes whose successors were asked for, in that order. -/
  expanded : List String
deriving DecidableEq, Repr

def State.path (s : State) : List String := (s.stack.map (·.node)).reverse

/-- The number of steps that finish the nodes on the stack if none is added. -/
def pending : List Frame → Nat
  | [] => 0
  | frame :: below => frame.rest.length + 1 + pending below

/-- Puts a node on the stack with all of its successors. -/
def State.expand (g : Digraph) (s : State) (node : String) : State where
  stack := ⟨node, g.successors node⟩ :: s.stack
  fresh := s.fresh.filter (· ≠ node)
  expanded := s.expanded ++ [node]

/-- One step: the answer, or the state to go on with. The target ends the search even where the
ceiling is reached, and an expanded node is passed over before the ceiling is looked at. -/
def step (g : Digraph) (target : String) (limit : Nat) (s : State) : Outcome ⊕ State :=
  match s.stack with
  | [] => .inl .clear
  | ⟨_, []⟩ :: below => .inr { s with stack := below }
  | ⟨node, child :: rest⟩ :: below =>
    let s := { s with stack := ⟨node, rest⟩ :: below }
    if child = target then .inl (.found (s.path ++ [child]))
    else if child ∉ s.fresh then .inr s
    else if limit ≤ s.stack.length then .inl (.tooDeep (s.path ++ [child]))
    else .inr (s.expand g child)

theorem length_filter_ne_lt {x : String} {l : List String} (h : x ∈ l) :
    (l.filter (· ≠ x)).length < l.length := by
  have := List.length_filter_lt_length_iff_exists (p := (· ≠ x)) (l := l)
  exact this.2 ⟨x, h, by simp⟩

theorem step_decreases {g : Digraph} {target : String} {limit : Nat} {s t : State}
    (h : step g target limit s = .inr t) :
    t.fresh.length < s.fresh.length ∨
      t.fresh.length = s.fresh.length ∧ pending t.stack < pending s.stack := by
  obtain ⟨stack, fresh, expanded⟩ := s
  unfold step at h
  match stack with
  | [] => cases h
  | ⟨node, []⟩ :: below =>
    cases h
    exact .inr ⟨rfl, by simp [pending]⟩
  | ⟨node, child :: rest⟩ :: below =>
    simp only at h
    split at h
    · cases h
    split at h
    · cases h
      exact .inr ⟨rfl, by simp [pending]⟩
    · next hfresh =>
      split at h
      · cases h
      · cases h
        exact .inl (length_filter_ne_lt (Decidable.not_not.1 hfresh))

/-- Repeats `step`. The answer comes with the nodes expanded on the way. -/
def run (g : Digraph) (target : String) (limit : Nat) (s : State) : Outcome × List String :=
  match _h : step g target limit s with
  | .inl outcome => (outcome, s.expanded)
  | .inr next => run g target limit next
termination_by (s.fresh.length, pending s.stack)
decreasing_by
  rcases step_decreases _h with hlt | ⟨heq, hlt⟩
  · exact .left _ _ hlt
  · rw [heq]; exact .right _ hlt

end Search

/-- Searches the graph for a path from `start` to `target`. A start that is the target is found
without looking at the graph. -/
def Digraph.search (g : Digraph) (start target : String) (limit : Nat) :
    Search.Outcome × List String :=
  if start = target then (.found [start], [])
  else Search.run g target limit
    (Search.State.expand g ⟨[], g.edges.map (·.2), []⟩ start)

def Digraph.findPath (g : Digraph) (start target : String) (limit : Nat) : Search.Outcome :=
  (g.search start target limit).1

end Statechart
