import Mathlib.Data.Prod.Basic
import Statechart.Proofs.Graph.CycleKey
import Statechart.Proofs.Graph.SearchOutcome

/-! Graphs with other names for their nodes. A search does not look at what the IDs are, only at
which of them are equal, so under a map that keeps different IDs apart it takes the same course. The
key of a cycle depends on the order of the IDs; whether two cycles have one key does not. -/

namespace Statechart

/-- The graph with a map applied to its nodes. -/
def Digraph.map (f : String → String) (g : Digraph) : Digraph := ⟨g.edges.map (Prod.map f f)⟩

variable {f : String → String}

namespace Digraph

variable {g : Digraph} {a b : String}

theorem mem_edges_map (hf : f.Injective) : (f a, f b) ∈ (g.map f).edges ↔ (a, b) ∈ g.edges :=
  List.mem_map_of_injective (Function.Injective.prodMap hf hf) (a := (a, b))

theorem contains_map (hf : f.Injective) (g : Digraph) (a b : String) :
    (g.map f).contains (f a) (f b) = g.contains a b := by
  rw [Bool.eq_iff_iff, contains_iff, contains_iff, mem_edges_map hf]

theorem insert_map (hf : f.Injective) (g : Digraph) (a b : String) :
    (g.map f).insert (f a) (f b) = (g.insert a b).map f := by
  unfold insert insert?
  rw [contains_map hf]
  split
  · rfl
  · simp [map]

theorem insertBoth_map (hf : f.Injective) (g : Digraph) (a b : String) :
    (g.map f).insertBoth (f a) (f b) = (g.insertBoth a b).map f := by
  rw [insertBoth, insert_map hf, insert_map hf, insertBoth]

theorem map_append (g h : Digraph) : (g ++ h).map f = g.map f ++ h.map f :=
  congrArg Digraph.mk List.map_append

theorem successors_map (hf : f.Injective) (g : Digraph) (a : String) :
    (g.map f).successors (f a) = (g.successors a).map f := by
  rw [successors, map, List.filterMap_map, successors, List.map_filterMap]
  apply List.filterMap_congr
  intro d _
  by_cases hd : d.1 = a
  · simp [hd]
  · simp [hd, hf.ne hd]

end Digraph

namespace Search

def Outcome.map (f : String → String) : Outcome → Outcome
  | clear => clear
  | found path => found (path.map f)
  | tooDeep path => tooDeep (path.map f)

def Frame.map (f : String → String) (x : Frame) : Frame := ⟨f x.node, x.rest.map f⟩

def State.map (f : String → String) (s : State) : State where
  stack := s.stack.map (·.map f)
  fresh := s.fresh.map f
  expanded := s.expanded.map f

theorem State.path_map (s : State) : (s.map f).path = s.path.map f := by
  simp [path, map, Frame.map, List.map_reverse, Function.comp_def]

theorem State.expand_map (hf : f.Injective) (g : Digraph) (s : State) (node : String) :
    State.expand (g.map f) (s.map f) (f node) = (s.expand g node).map f := by
  have hfilter : (s.fresh.map f).filter (· ≠ f node) = (s.fresh.filter (· ≠ node)).map f := by
    rw [List.filter_map]
    congr 1
    apply List.filter_congr
    intro x _
    simp [hf.eq_iff]
  simp only [expand, map, hfilter, Digraph.successors_map hf]
  simp [Frame.map]

/-- A step on the mapped graph is the step on the graph, mapped. -/
theorem step_map (hf : f.Injective) (g : Digraph) (target : String) (limit : Nat) (s : State) :
    step (g.map f) (f target) limit (s.map f) =
      (step g target limit s).map (Outcome.map f) (State.map f) := by
  obtain ⟨stack, fresh, expanded⟩ := s
  match stack with
  | [] => rfl
  | ⟨node, []⟩ :: below => rfl
  | ⟨node, child :: rest⟩ :: below =>
    have hstate : State.map f ⟨⟨node, child :: rest⟩ :: below, fresh, expanded⟩ =
        ⟨⟨f node, f child :: rest.map f⟩ :: below.map (·.map f), fresh.map f, expanded.map f⟩ := rfl
    have hnext : (⟨⟨f node, rest.map f⟩ :: below.map (·.map f), fresh.map f, expanded.map f⟩ :
        State) = State.map f ⟨⟨node, rest⟩ :: below, fresh, expanded⟩ := rfl
    rw [hstate]
    simp only [step, hnext, hf.eq_iff, List.mem_map_of_injective hf, State.path_map,
      State.expand_map hf, List.length_cons, List.length_map]
    by_cases htarget : child = target
    · simp [htarget, Outcome.map]
    by_cases hfresh : child ∈ fresh
    · by_cases hlimit : limit ≤ below.length + 1
      · simp [htarget, hfresh, hlimit, Outcome.map]
      · simp [htarget, hfresh, hlimit]
    · simp [htarget, hfresh]

theorem run_map (hf : f.Injective) (g : Digraph) (target : String) (limit : Nat) (s : State) :
    (run (g.map f) (f target) limit (s.map f)).1 = (run g target limit s).1.map f := by
  induction s using Search.run.induct g target limit with
  | case1 s outcome h =>
    have hmap := step_map hf g target limit s
    rw [h] at hmap
    rw [run_of_inl h, run_of_inl hmap]
  | case2 s next h ih =>
    have hmap := step_map hf g target limit s
    rw [h] at hmap
    rw [run_of_inr h, run_of_inr hmap, ih]

end Search

/-- A search in the mapped graph has the mapped answer. -/
theorem Digraph.findPath_map (hf : f.Injective) (g : Digraph) (start target : String)
    (limit : Nat) :
    (g.map f).findPath (f start) (f target) limit = (g.findPath start target limit).map f := by
  unfold findPath search
  by_cases h : start = target
  · rw [if_pos h, if_pos (congrArg f h)]
    rfl
  · rw [if_neg h, if_neg (hf.ne h), ← Search.run_map hf, ← Search.State.expand_map hf]
    simp [Search.State.map, map, Function.comp_def]

/-- Whether two cycles have one key does not depend on the names of their nodes. -/
theorem cycleKey_map_eq_iff (hf : f.Injective) {a b : String} {l k : List String}
    (hl : (a :: l).Nodup) :
    cycleKey ((a :: (l ++ [a])).map f) = cycleKey ((b :: (k ++ [b])).map f) ↔
      cycleKey (a :: (l ++ [a])) = cycleKey (b :: (k ++ [b])) := by
  have close (c : String) (n : List String) :
      cycleKey ((c :: (n ++ [c])).map f) = rotateToLeast ((c :: n).map f) := by
    rw [List.map_cons, List.map_append, List.map_singleton, cycleKey_close, List.map_cons]
  rw [close, close, cycleKey_close, cycleKey_close, rotateToLeast_eq_iff (hl.map hf),
    rotateToLeast_eq_iff hl]
  constructor
  · rintro ⟨n, hn⟩
    rw [← List.map_rotate] at hn
    exact ⟨n, List.map_injective_iff.2 hf hn⟩
  · exact fun h => h.map f

end Statechart
