/-! Directed graphs over element IDs, and names for their cycles. A graph is its list of edges in the
order of first insertion; the successors of a node are read off that list, so every pass over a
graph sees one order. A cycle found from any of its nodes lists the same nodes in the same cyclic
order, so turning it to start at its least node gives one name to all of its rotations. -/

namespace Statechart

structure Digraph where
  edges : List (String × String) := []
deriving DecidableEq, Repr

namespace Digraph

def contains (g : Digraph) (a b : String) : Bool := (a, b) ∈ g.edges

/-- The graph with a new last edge, or `none` if it has the edge already. -/
def insert? (g : Digraph) (a b : String) : Option Digraph :=
  if g.contains a b then none else some ⟨g.edges ++ [(a, b)]⟩

def insert (g : Digraph) (a b : String) : Digraph := (g.insert? a b).getD g

/-- Adds the edge in both directions. -/
def insertBoth (g : Digraph) (a b : String) : Digraph := (g.insert a b).insert b a

def successors (g : Digraph) (node : String) : List String :=
  g.edges.filterMap fun edge => if edge.1 = node then some edge.2 else none

/-- Both edge lists, so that a node's successors in the first graph come before those in the
second. -/
instance : Append Digraph where
  append g h := ⟨g.edges ++ h.edges⟩

theorem contains_iff {g : Digraph} {a b : String} : g.contains a b = true ↔ (a, b) ∈ g.edges := by
  simp [contains]

theorem insert?_of_mem {g : Digraph} {a b : String} (h : (a, b) ∈ g.edges) :
    g.insert? a b = none :=
  if_pos (contains_iff.2 h)

theorem insert?_of_not_mem {g : Digraph} {a b : String} (h : (a, b) ∉ g.edges) :
    g.insert? a b = some (g ++ ⟨[(a, b)]⟩) :=
  if_neg fun hcontains => h (contains_iff.1 hcontains)

theorem insert_of_mem {g : Digraph} {a b : String} (h : (a, b) ∈ g.edges) : g.insert a b = g := by
  rw [insert, insert?_of_mem h, Option.getD_none]

theorem insert_of_not_mem {g : Digraph} {a b : String} (h : (a, b) ∉ g.edges) :
    g.insert a b = g ++ ⟨[(a, b)]⟩ := by
  rw [insert, insert?_of_not_mem h, Option.getD_some]

theorem edges_append (g h : Digraph) : (g ++ h).edges = g.edges ++ h.edges := rfl

theorem mem_successors {g : Digraph} {a b : String} : b ∈ g.successors a ↔ (a, b) ∈ g.edges := by
  simp only [successors, List.mem_filterMap]
  constructor
  · rintro ⟨⟨x, y⟩, hmem, heq⟩
    split at heq
    · next hx => cases heq; exact hx ▸ hmem
    · cases heq
  · exact fun h => ⟨(a, b), h, by simp⟩

theorem successors_append (g h : Digraph) (node : String) :
    (g ++ h).successors node = g.successors node ++ h.successors node :=
  List.filterMap_append

end Digraph

/-- The least of the IDs by code points. -/
def leastId : List String → Option String
  | [] => none
  | a :: rest =>
    match leastId rest with
    | none => some a
    | some b => some (if b < a then b else a)

/-- The list turned to start at the first occurrence of its least ID. -/
def rotateToLeast (nodes : List String) : List String :=
  match leastId nodes with
  | none => []
  | some least => nodes.dropWhile (· ≠ least) ++ nodes.takeWhile (· ≠ least)

/-- The name of a closed walk, whose last node repeats its first. -/
def cycleKey (cycle : List String) : List String :=
  rotateToLeast (if cycle.length ≤ 1 then cycle else cycle.dropLast)

example : cycleKey ["b", "a", "c", "b"] = ["a", "c", "b"] := by decide

end Statechart
