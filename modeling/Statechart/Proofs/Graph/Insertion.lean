import Std.Data.HashMap.Lemmas
import Mathlib.Data.List.Basic
import Mathlib.Data.List.Induction
import Statechart.Graph.Basic

/-! A digraph grows by insertions. Its edges are the pairs that were inserted, each of them once, in
the order in which they first came. A digraph can be kept with a table of successors beside its
edges, so that a question about a node does not go through all of the edges. Every insertion keeps
the two in step, and then the table gives the answers of the edges. -/

namespace Statechart

/-- A call that adds to a digraph. -/
inductive Insertion where
  | one (a b : String)
  /-- An edge and its reverse. -/
  | both (a b : String)
deriving DecidableEq, Repr

namespace Insertion

/-- The pairs that a call inserts, in order. -/
def pairs : Insertion → List (String × String)
  | one a b => [(a, b)]
  | both a b => [(a, b), (b, a)]

/-- Calls that insert both directions leave no pair without its reverse. -/
theorem mem_pairs_swap {calls : List Insertion} (h : ∀ c ∈ calls, ∃ a b, c = both a b)
    {a b : String} (hab : (a, b) ∈ calls.flatMap pairs) : (b, a) ∈ calls.flatMap pairs := by
  obtain ⟨c, hc, hmem⟩ := List.mem_flatMap.1 hab
  obtain ⟨x, y, rfl⟩ := h c hc
  refine List.mem_flatMap.2 ⟨both x y, hc, ?_⟩
  simp only [pairs, List.mem_cons, Prod.mk.injEq, List.not_mem_nil, or_false] at hmem ⊢
  rcases hmem with ⟨rfl, rfl⟩ | ⟨rfl, rfl⟩
  · exact .inr ⟨rfl, rfl⟩
  · exact .inl ⟨rfl, rfl⟩

end Insertion

namespace Digraph

variable {g : Digraph} {pairs : List (String × String)}

def add (g : Digraph) : Insertion → Digraph
  | .one a b => g.insert a b
  | .both a b => g.insertBoth a b

/-- The digraph that a sequence of calls makes from nothing. -/
def ofInsertions (calls : List Insertion) : Digraph := calls.foldl add {}

theorem isSome_insert? {a b : String} : (g.insert? a b).isSome = true ↔ (a, b) ∉ g.edges := by
  by_cases h : (a, b) ∈ g.edges
  · simp [insert?_of_mem h, h]
  · simp [insert?_of_not_mem h, h]

theorem successors_eq_map_filter (g : Digraph) (node : String) :
    g.successors node = (g.edges.filter (·.1 = node)).map (·.2) := by
  unfold successors
  induction g.edges with
  | nil => rfl
  | cons e l ih =>
    by_cases he : e.1 = node
    · simp [he, ih]
    · simp [he, ih]

/-- The edges are the pairs, in the order in which the pairs first came. -/
structure Records (g : Digraph) (pairs : List (String × String)) : Prop where
  mem : ∀ e, e ∈ g.edges ↔ e ∈ pairs
  order : g.edges.Pairwise fun d e => pairs.idxOf d < pairs.idxOf e

namespace Records

theorem insert (h : g.Records pairs) (a b : String) :
    (g.insert a b).Records (pairs ++ [(a, b)]) := by
  -- what was inserted before keeps its first place
  have hplace {e} (he : e ∈ g.edges) : (pairs ++ [(a, b)]).idxOf e = pairs.idxOf e :=
    List.idxOf_append_of_mem ((h.mem e).1 he)
  have horder : g.edges.Pairwise fun d e =>
      (pairs ++ [(a, b)]).idxOf d < (pairs ++ [(a, b)]).idxOf e := by
    refine h.order.imp_of_mem ?_
    intro d e hd he hlt
    rwa [hplace hd, hplace he]
  by_cases hab : (a, b) ∈ g.edges
  · rw [insert_of_mem hab]
    refine ⟨fun e => ?_, horder⟩
    rw [h.mem, List.mem_append, List.mem_singleton]
    exact ⟨.inl, fun he => he.elim id fun heq => heq ▸ (h.mem _).1 hab⟩
  · rw [insert_of_not_mem hab]
    have hnew : (a, b) ∉ pairs := fun hmem => hab ((h.mem _).2 hmem)
    refine ⟨fun e => ?_, ?_⟩
    · rw [edges_append, List.mem_append, List.mem_append, h.mem]
    · rw [edges_append, List.pairwise_append]
      refine ⟨horder, List.pairwise_singleton _ _, ?_⟩
      intro d hd e he
      rw [List.mem_singleton.1 he, hplace hd, List.idxOf_append_of_notMem hnew,
        List.idxOf_cons_self, Nat.add_zero]
      exact List.idxOf_lt_length_of_mem ((h.mem d).1 hd)

theorem add (h : g.Records pairs) (c : Insertion) : (g.add c).Records (pairs ++ c.pairs) := by
  cases c with
  | one a b => exact h.insert a b
  | both a b =>
    have hboth := (h.insert a b).insert b a
    rwa [List.append_assoc] at hboth

/-- No place in a list comes before itself. -/
theorem nodup (h : g.Records pairs) : g.edges.Nodup :=
  h.order.imp fun hlt heq => absurd (heq ▸ hlt) (Nat.lt_irrefl _)

end Records

theorem records_ofInsertions (calls : List Insertion) :
    (ofInsertions calls).Records (calls.flatMap Insertion.pairs) := by
  induction calls using List.reverseRecOn with
  | nil => exact ⟨fun e => Iff.rfl, .nil⟩
  | append_singleton calls c ih =>
    rw [ofInsertions, List.foldl_concat, List.flatMap_append, List.flatMap_singleton]
    exact ih.add c

end Digraph

/-- A digraph with a table of the successors of each node, in the order of the edges. -/
structure IndexedDigraph where
  edges : List (String × String) := []
  targets : Std.HashMap String (List String) := {}

namespace IndexedDigraph

def successors (t : IndexedDigraph) (node : String) : List String := t.targets.getD node []

def contains (t : IndexedDigraph) (a b : String) : Bool := b ∈ t.successors a

/-- Whether the edge is new, and the digraph with it. Only the table is asked. -/
def insert (t : IndexedDigraph) (a b : String) : Bool × IndexedDigraph :=
  if t.contains a b then (false, t)
  else (true,
    { edges := t.edges ++ [(a, b)], targets := t.targets.insert a (t.successors a ++ [b]) })

def add (t : IndexedDigraph) : Insertion → IndexedDigraph
  | .one a b => (t.insert a b).2
  | .both a b => ((t.insert a b).2.insert b a).2

def ofInsertions (calls : List Insertion) : IndexedDigraph := calls.foldl add {}

/-- The edges are those of the digraph, and the table has the successors that it gives. -/
structure InStep (t : IndexedDigraph) (g : Digraph) : Prop where
  edges : t.edges = g.edges
  successors : ∀ node, t.successors node = g.successors node

namespace InStep

variable {t : IndexedDigraph} {g : Digraph}

theorem mem_successors (h : t.InStep g) {a b : String} : b ∈ t.successors a ↔ (a, b) ∈ g.edges := by
  rw [h.successors, Digraph.mem_successors]

theorem contains (h : t.InStep g) (a b : String) : t.contains a b = g.contains a b := by
  rw [Bool.eq_iff_iff, Digraph.contains_iff, IndexedDigraph.contains, decide_eq_true_iff,
    h.mem_successors]

theorem isNew_insert (h : t.InStep g) (a b : String) :
    (t.insert a b).1 = (g.insert? a b).isSome := by
  unfold IndexedDigraph.insert Digraph.insert?
  rw [h.contains]
  split <;> rfl

theorem insert (h : t.InStep g) (a b : String) : (t.insert a b).2.InStep (g.insert a b) := by
  unfold IndexedDigraph.insert
  rw [h.contains]
  by_cases hab : (a, b) ∈ g.edges
  · rw [if_pos (Digraph.contains_iff.2 hab), Digraph.insert_of_mem hab]
    exact h
  · rw [if_neg fun hcontains => hab (Digraph.contains_iff.1 hcontains),
      Digraph.insert_of_not_mem hab]
    refine ⟨congrArg (· ++ [(a, b)]) h.edges, fun node => ?_⟩
    rw [Digraph.successors_append, ← h.successors node]
    simp only [IndexedDigraph.successors, Std.HashMap.getD_insert, Digraph.successors]
    by_cases hnode : a = node
    · simp [hnode]
    · simp [hnode]

theorem add (h : t.InStep g) (c : Insertion) : (t.add c).InStep (g.add c) := by
  cases c with
  | one a b => exact h.insert a b
  | both a b => exact (h.insert a b).insert b a

end InStep

theorem inStep_ofInsertions (calls : List Insertion) :
    (ofInsertions calls).InStep (.ofInsertions calls) := by
  induction calls using List.reverseRecOn with
  | nil => exact ⟨rfl, fun node => Std.HashMap.getD_empty⟩
  | append_singleton calls c ih =>
    rw [ofInsertions, List.foldl_concat, Digraph.ofInsertions, List.foldl_concat]
    exact ih.add c

/-- What a sequence of calls leaves. The edges are the inserted pairs, each once and in the order in
which they first came. The table has the targets of the edges from each node in that order, so its
answers are those of a digraph without a table. -/
theorem ofInsertions_answers (calls : List Insertion) :
    let g := Digraph.ofInsertions calls
    let t := ofInsertions calls
    let pairs := calls.flatMap Insertion.pairs
    t.InStep g ∧
    (t.edges.Nodup ∧ (∀ e, e ∈ t.edges ↔ e ∈ pairs) ∧
      t.edges.Pairwise fun d e => pairs.idxOf d < pairs.idxOf e) ∧
    (∀ node, t.successors node = (t.edges.filter (·.1 = node)).map (·.2)) ∧
    (∀ a b, t.contains a b = g.contains a b ∧
      (t.contains a b = true ↔ (a, b) ∈ pairs) ∧ ((a, b) ∈ pairs ↔ b ∈ t.successors a)) ∧
    (∀ a b, (t.insert a b).1 = (g.insert? a b).isSome ∧
      ((t.insert a b).1 = true ↔ (a, b) ∉ pairs)) ∧
    ((∀ c ∈ calls, ∃ a b, c = .both a b) → ∀ a b, t.contains a b = t.contains b a) := by
  intro g t pairs
  have hstep : t.InStep g := inStep_ofInsertions calls
  have hrecords : g.Records pairs := Digraph.records_ofInsertions calls
  have hcontains (a b : String) : t.contains a b = true ↔ (a, b) ∈ pairs := by
    rw [hstep.contains, Digraph.contains_iff, hrecords.mem]
  refine ⟨hstep, ?_, ?_, ?_, ?_, ?_⟩
  · rw [hstep.edges]
    exact ⟨hrecords.nodup, hrecords.mem, hrecords.order⟩
  · intro node
    rw [hstep.successors, hstep.edges, Digraph.successors_eq_map_filter]
  · intro a b
    refine ⟨hstep.contains a b, hcontains a b, ?_⟩
    rw [hstep.mem_successors, hrecords.mem]
  · intro a b
    refine ⟨hstep.isNew_insert a b, ?_⟩
    rw [hstep.isNew_insert, Digraph.isSome_insert?, hrecords.mem]
  · intro hboth a b
    have hswap (x y : String) : (x, y) ∈ pairs → (y, x) ∈ pairs := Insertion.mem_pairs_swap hboth
    rw [Bool.eq_iff_iff, hcontains, hcontains]
    exact ⟨hswap a b, hswap b a⟩

/-- A reference, its repetition from the other end, and one of an element to itself. -/
def mutualReferences : List Insertion := [.both "s" "t", .both "t" "s", .both "s" "s"]

theorem mutualReferences_symmetric :
    (∀ c ∈ mutualReferences, ∃ a b, c = .both a b) ∧
    (ofInsertions mutualReferences).edges = [("s", "t"), ("t", "s"), ("s", "s")] ∧
    (ofInsertions mutualReferences).contains "t" "s" = true := by
  obtain ⟨hstep, -, -, hcontains, -, hsymmetric⟩ := ofInsertions_answers mutualReferences
  have hboth : ∀ c ∈ mutualReferences, ∃ a b, c = .both a b := by simp [mutualReferences]
  refine ⟨hboth, hstep.edges.trans (by decide), ?_⟩
  rw [hsymmetric hboth "t" "s"]
  exact (hcontains "s" "t").2.1.2 (by decide)

end IndexedDigraph

end Statechart
