import Mathlib.Data.List.Permutation
import Statechart.Proofs.Graph.SearchOutcome

/-! The path that a search finds is the first one: where another path parts from it, the other goes
on to a later successor. A search passes over a successor that was expanded before, although some
path may lead on from there to the target. No path from the start does so by way of the nodes on the
stack: the nodes that are done with lead to expanded nodes only, so such a path would have to come
back to the stack. The successors that a search came past are dead ends in this sense, and that is
the invariant. -/

namespace Statechart

namespace Digraph

/-- Whether one list of nodes comes before another in the order of a search: where they part, its
next node is the earlier successor of the last node that they share. -/
def Precedes (g : Digraph) (path other : List String) : Prop :=
  ∃ common node x y rest rest', path = common ++ node :: x :: rest ∧
    other = common ++ node :: y :: rest' ∧
    (g.successors node).idxOf x < (g.successors node).idxOf y

/-- Whether no path from one node to another begins with the nodes given. -/
def DeadEnd (g : Digraph) (start target : String) (nodes : List String) : Prop :=
  ∀ path, g.IsPath start target path → ¬ nodes <+: path

variable {g : Digraph} {start target : String}

theorem exists_parting {path other : List String} (hhead : path.head? = other.head?)
    (hlast : path.getLast? = other.getLast?) (hpath : path.Nodup) (hother : other.Nodup)
    (hne : path ≠ other) :
    ∃ common node x y rest rest', path = common ++ node :: x :: rest ∧
      other = common ++ node :: y :: rest' ∧ x ≠ y := by
  -- a list without repetitions that ends with its head has no other members
  have single {a b : String} {l : List String} (hl : (a :: b :: l).Nodup)
      (h : (b :: l).getLast? = some a) : False :=
    (List.nodup_cons.1 hl).1 (List.mem_of_getLast? h)
  induction path generalizing other with
  | nil => exact absurd (List.head?_eq_none_iff.1 hhead.symm).symm hne
  | cons a path ih =>
    obtain ⟨other, rfl⟩ := List.head?_eq_some_iff.1 hhead.symm
    cases path with
    | nil =>
      cases other with
      | nil => exact absurd rfl hne
      | cons y other => exact (single hother hlast.symm).elim
    | cons x path =>
      cases other with
      | nil => exact (single hpath hlast).elim
      | cons y other =>
        by_cases hxy : x = y
        · subst hxy
          rw [List.getLast?_cons_cons, List.getLast?_cons_cons] at hlast
          have hsame : (x :: path).head? = (x :: other).head? := rfl
          obtain ⟨common, node, x', y', rest, rest', hx, hy, hne'⟩ :=
            ih hsame hlast (List.nodup_cons.1 hpath).2 (List.nodup_cons.1 hother).2
              fun heq => hne (congrArg _ heq)
          exact ⟨a :: common, node, x', y', rest, rest', congrArg _ hx, congrArg _ hy, hne'⟩
        · exact ⟨[], a, x, y, path, other, rfl, rfl, hxy⟩

theorem DeadEnd.of_successors {nodes : List String} {node : String} (hne : node ≠ target)
    (h : ∀ x ∈ g.successors node, g.DeadEnd start target (nodes ++ [node] ++ [x])) :
    g.DeadEnd start target (nodes ++ [node]) := by
  rintro path hpath ⟨rest, rfl⟩
  cases rest with
  | nil =>
    have hlast := hpath.last
    rw [List.append_nil, List.getLast?_concat] at hlast
    exact hne (Option.some.inj hlast)
  | cons x rest =>
    have hedge : g.Edge node x := by
      have hchain := hpath.chain
      rw [List.append_assoc, List.singleton_append] at hchain
      exact (List.isChain_append_cons_cons.1 hchain).2.1
    exact h x (mem_successors.2 hedge) _ hpath ⟨rest, by simp⟩

end Digraph

namespace Search

variable {g : Digraph} {start target : String} {limit : ℕ} {s t : State}

theorem Inv.expanded_of_chain (h : Inv g start target limit s) {x : String} {l : List String}
    (hx : x ∈ s.expanded) (hchain : (x :: l).IsChain g.Edge)
    (hoff : ∀ y ∈ x :: l, y ∉ s.stack.map (·.node)) : ∀ y ∈ x :: l, y ∈ s.expanded := by
  induction l generalizing x with
  | nil => simpa using hx
  | cons z l ih =>
    obtain ⟨hedge, hrest⟩ := List.isChain_cons_cons.1 hchain
    have hz : z ∈ s.expanded := by
      rcases h.closed x hx z hedge with hz | ⟨f, hf, rfl, -⟩
      · exact hz
      · exact absurd (List.mem_map_of_mem hf) (hoff f.node (.head _))
    exact List.forall_mem_cons.2 ⟨hx, ih hz hrest fun y hy => hoff y (.tail _ hy)⟩

/-- From the nodes on the stack no path goes on to an expanded node. -/
theorem Inv.deadEnd (h : Inv g start target limit s) {x : String} (hx : x ∈ s.expanded) :
    g.DeadEnd start target (s.path ++ [x]) := by
  rintro path hpath ⟨rest, rfl⟩
  have hnodup := hpath.nodup
  have hchain := hpath.chain
  have hlast := hpath.last
  rw [List.append_assoc, List.singleton_append] at hnodup hchain hlast
  have hoff : ∀ y ∈ x :: rest, y ∉ s.stack.map (·.node) := by
    intro y hy hstack
    exact (List.nodup_append'.1 hnodup).2.2 (List.mem_reverse.2 hstack) hy
  have hexpanded := h.expanded_of_chain hx hchain.right_of_append hoff
  have htarget : target ∈ x :: rest := by
    refine List.mem_of_getLast? ?_
    rwa [List.getLast?_append_of_ne_nil _ (List.cons_ne_nil _ _)] at hlast
  exact h.missed (hexpanded target htarget)

/-- The successors that a search came past on its way are dead ends. The way goes on from the top
of the stack to the nodes ahead, if there are some. -/
def Trail (g : Digraph) (start target : String) : List String → List Frame → Prop
  | _, [] => True
  | ahead, frame :: below =>
    (∃ passed, g.successors frame.node = passed ++ ahead ++ frame.rest ∧
      ∀ x ∈ passed, g.DeadEnd start target
        (((frame :: below).map (·.node)).reverse ++ [x])) ∧
    Trail g start target [frame.node] below

theorem Trail.pass {frame : Frame} {below : List Frame} {x : String}
    (h : Trail g start target [x] (frame :: below))
    (hx : g.DeadEnd start target (((frame :: below).map (·.node)).reverse ++ [x])) :
    Trail g start target [] (frame :: below) := by
  obtain ⟨⟨passed, hsuccessors, hdead⟩, hbelow⟩ := h
  refine ⟨⟨passed ++ [x], by simpa using hsuccessors, ?_⟩, hbelow⟩
  intro y hy
  rcases List.mem_append.1 hy with hy | hy
  · exact hdead y hy
  · rwa [List.mem_singleton.1 hy]

theorem Trail.next {node child : String} {rest : List String} {below : List Frame}
    (h : Trail g start target [] (⟨node, child :: rest⟩ :: below)) :
    Trail g start target [child] (⟨node, rest⟩ :: below) := by
  obtain ⟨⟨passed, hsuccessors, hdead⟩, hbelow⟩ := h
  exact ⟨⟨passed, by simpa using hsuccessors, hdead⟩, hbelow⟩

theorem Trail.move (hinv : Inv g start target limit s) (h : Trail g start target [] s.stack)
    (hmove : Move g target limit s t) : Trail g start target [] t.stack := by
  cases hmove with
  | @pop node below fresh expanded =>
    obtain ⟨⟨passed, hsuccessors, hdead⟩, hbelow⟩ := h
    cases below with
    | nil => exact hbelow
    | cons frame below =>
      have hne : node ≠ target := by
        rintro rfl
        exact hinv.missed (hinv.onStack ⟨node, []⟩ (.head _))
      -- all successors of the node were passed, so it is a dead end itself
      refine hbelow.pass (Digraph.DeadEnd.of_successors hne ?_)
      intro x hx
      rw [hsuccessors, List.append_nil, List.append_nil] at hx
      simpa using hdead x hx
  | @skip node child rest below fresh expanded htarget hfresh =>
    refine h.next.pass ?_
    exact hinv.deadEnd (hinv.expanded_of_not_fresh hfresh)
  | push htarget hfresh hlimit => exact ⟨⟨[], by simp, List.forall_mem_nil _⟩, h.next⟩

/-- At each turn of its way a search has come past dead ends only. -/
theorem Trail.turn {stack : List Frame} {last : String} (h : Trail g start target [last] stack)
    {common rest : List String} {node x : String}
    (hpath : (stack.map (·.node)).reverse ++ [last] = common ++ node :: x :: rest) :
    ∃ passed later, g.successors node = passed ++ x :: later ∧
      ∀ y ∈ passed, g.DeadEnd start target (common ++ [node, y]) := by
  induction stack generalizing last rest with
  | nil =>
    have hlength := congrArg List.length hpath
    simp at hlength
    omega
  | cons frame below ih =>
    obtain ⟨⟨passed, hsuccessors, hdead⟩, hbelow⟩ := h
    rw [List.map_cons, List.reverse_cons] at hpath hdead
    cases rest using List.reverseRecOn with
    | nil =>
      rw [show common ++ [node, x] = common ++ [node] ++ [x] by simp] at hpath
      obtain ⟨hfront, hx⟩ := List.append_inj' hpath rfl
      obtain ⟨rfl, hnode⟩ := List.append_inj' hfront rfl
      obtain rfl : frame.node = node := by simpa using hnode
      obtain rfl : last = x := by simpa using hx
      refine ⟨passed, frame.rest, by simpa using hsuccessors, ?_⟩
      intro y hy
      simpa using hdead y hy
    | append_singleton rest z =>
      rw [show common ++ node :: x :: (rest ++ [z]) = common ++ node :: x :: rest ++ [z] by simp]
        at hpath
      exact ih hbelow (List.append_inj' hpath rfl).1

end Search

namespace Digraph

variable {g : Digraph} {start target : String} {limit : ℕ} {path : List String}

theorem turn_of_found (h : g.findPath start target limit = .found path)
    {common rest : List String} {node x : String} (hpath : path = common ++ node :: x :: rest) :
    ∃ passed later, g.successors node = passed ++ x :: later ∧
      ∀ y ∈ passed, g.DeadEnd start target (common ++ [node, y]) := by
  by_cases hne : start = target
  · subst hne
    rw [findPath, search_self] at h
    cases h
    have hlength := congrArg List.length hpath
    simp at hlength
    omega
  · have hstart : Search.Trail g start target [] (Search.State.initial g start).stack :=
      ⟨⟨[], by simp, List.forall_mem_nil _⟩, trivial⟩
    obtain ⟨last, -, htrail, hstop, -⟩ := g.exists_last_of_search limit hne
      (P := fun s => Search.Trail g start target [] s.stack) hstart
      fun s t hinv htrail hmove => htrail.move hinv hmove
    have hanswer : (g.search start target limit).1 = .found path := h
    rw [hanswer] at hstop
    cases hstop with
    | found => exact htrail.next.turn hpath

/-- The path found is the first of all paths: no other comes before it. -/
theorem findPath_first (h : g.findPath start target limit = .found path) :
    g.IsPath start target path ∧ ∀ other, g.IsPath start target other →
      ¬ g.Precedes other path ∧ (other = path ∨ g.Precedes path other) := by
  have hsound := g.findPath_spec start target limit
  rw [h] at hsound
  refine ⟨hsound.1, ?_⟩
  intro other hother
  have hfirst : ¬ g.Precedes other path := by
    rintro ⟨common, node, y, x, rest', rest, rfl, hpath, hlt⟩
    obtain ⟨passed, later, hsuccessors, hdead⟩ := turn_of_found h hpath
    have hy : y ∈ passed := by
      by_contra hy
      rw [hsuccessors, List.idxOf_append_of_notMem hy] at hlt
      by_cases hx : x ∈ passed
      · rw [List.idxOf_append_of_mem hx] at hlt
        have := List.idxOf_lt_length_of_mem hx
        omega
      · rw [List.idxOf_append_of_notMem hx, List.idxOf_cons_self] at hlt
        omega
    exact hdead y hy _ hother ⟨rest', by simp⟩
  refine ⟨hfirst, or_iff_not_imp_left.2 fun hne => ?_⟩
  have hpath := hsound.1
  obtain ⟨common, node, x, y, rest, rest', hx, hy, hxy⟩ :=
    exists_parting (hpath.first.trans hother.first.symm) (hpath.last.trans hother.last.symm)
      hpath.nodup hother.nodup (Ne.symm hne)
  refine ⟨common, node, x, y, rest, rest', hx, hy, ?_⟩
  have hedge {z : String} {l l' : List String} (hl : l = common ++ node :: z :: l')
      (hchain : l.IsChain g.Edge) : z ∈ g.successors node :=
    mem_successors.2 (List.isChain_append_cons_cons.1 (hl ▸ hchain)).2.1
  have hle : (g.successors node).idxOf x ≤ (g.successors node).idxOf y := by
    by_contra hlt
    exact hfirst ⟨common, node, y, x, rest', rest, hy, hx, not_le.1 hlt⟩
  refine lt_of_le_of_ne hle fun heq => hxy ?_
  exact (List.idxOf_inj (hedge hx hpath.chain)).1 heq

/-- A node that leads back, and on to the target only by the node that leads to it. -/
def detour : Digraph := ⟨[("a", "b"), ("a", "x"), ("b", "x"), ("b", "t"), ("x", "b")]⟩

/-- The search leaves the node for good while its way on is blocked, and finds the first path. -/
theorem detour_first :
    detour.findPath "a" "t" 100 = .found ["a", "b", "t"] ∧
      detour.IsPath "a" "t" ["a", "x", "b", "t"] ∧
      detour.Precedes ["a", "b", "t"] ["a", "x", "b", "t"] := by
  have hfound : detour.findPath "a" "t" 100 = .found ["a", "b", "t"] := by cbv
  have hpath : detour.IsPath "a" "t" ["a", "x", "b", "t"] :=
    ⟨rfl, rfl, by decide, by simp [Edge, detour]⟩
  have hfirst := ((findPath_first hfound).2 _ hpath).2
  exact ⟨hfound, hpath, hfirst.resolve_left (by decide)⟩

end Digraph

end Statechart
