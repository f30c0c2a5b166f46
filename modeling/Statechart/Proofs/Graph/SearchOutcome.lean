import Statechart.Proofs.Graph.Closed
import Statechart.Proofs.Graph.SearchMoves

/-! What the answers of a search mean. A path that is found or broken off follows edges and comes to
no node twice; a search that finds nothing has expanded every node that the start leads to. The
invariant behind the last part is that an edge out of an expanded node leads to an expanded node,
unless it still waits on the stack. -/

namespace Statechart

namespace Search

variable {g : Digraph} {start target : String} {limit : Nat} {s t : State} {outcome : Outcome}

structure Inv (g : Digraph) (start target : String) (limit : Nat) (s : State) : Prop where
  fresh : ∀ x, x ∈ s.fresh ↔ x ∈ g.edges.map (·.2) ∧ x ∉ s.expanded
  started : start ∈ s.expanded
  missed : target ∉ s.expanded
  bottom : s.stack ≠ [] → (s.stack.map (·.node)).getLast? = some start
  nodup : (s.stack.map (·.node)).Nodup
  chain : (s.stack.map (·.node)).IsChain fun a b => g.Edge b a
  onStack : ∀ f ∈ s.stack, f.node ∈ s.expanded
  rest : ∀ f ∈ s.stack, ∀ b ∈ f.rest, g.Edge f.node b
  closed : ∀ a ∈ s.expanded, ∀ b, g.Edge a b →
    b ∈ s.expanded ∨ ∃ f ∈ s.stack, f.node = a ∧ b ∈ f.rest
  depth : s.stack.length ≤ max limit 1

/-- What an answer promises. -/
def Outcome.Sound (g : Digraph) (start target : String) (limit : Nat) : Outcome → Prop
  | clear => ¬ g.Reaches start target
  | found path => g.IsPath start target path ∧ path.length ≤ max limit 1 + 1
  | tooDeep path =>
    path.head? = some start ∧ path.Nodup ∧ path.IsChain g.Edge ∧ target ∉ path
      ∧ path.length = max limit 1 + 1

theorem inv_start (h : start ≠ target) :
    Inv g start target limit (.initial g start) where
  fresh x := by simp [State.initial, State.expand]
  started := by simp [State.initial, State.expand]
  missed := by simpa [State.initial, State.expand] using h.symm
  bottom _ := by simp [State.initial, State.expand]
  nodup := by simp [State.initial, State.expand]
  chain := by simp [State.initial, State.expand]
  onStack f hf := by
    obtain rfl := List.mem_singleton.1 hf
    simp [State.initial, State.expand]
  rest f hf b hb := by
    obtain rfl := List.mem_singleton.1 hf
    exact Digraph.mem_successors.1 hb
  closed a ha b hab := by
    obtain rfl : a = start := by simpa [State.initial, State.expand] using ha
    exact .inr ⟨_, List.mem_singleton_self _, rfl, Digraph.mem_successors.2 hab⟩
  depth := Nat.le_max_right limit 1

theorem Inv.pop {node : String} {below : List Frame} {fresh expanded : List String}
    (h : Inv g start target limit ⟨⟨node, []⟩ :: below, fresh, expanded⟩) :
    Inv g start target limit ⟨below, fresh, expanded⟩ where
  fresh := h.fresh
  started := h.started
  missed := h.missed
  bottom hne := by
    obtain ⟨f, below, rfl⟩ := List.exists_cons_of_ne_nil hne
    simpa using h.bottom (by simp)
  nodup := (List.nodup_cons.1 h.nodup).2
  chain := h.chain.tail
  onStack f hf := h.onStack f (.tail _ hf)
  rest f hf := h.rest f (.tail _ hf)
  closed a ha b hab := by
    rcases h.closed a ha b hab with hb | ⟨f, hf, hfa, hb⟩
    · exact .inl hb
    · rcases List.mem_cons.1 hf with rfl | hf
      · cases hb
      · exact .inr ⟨f, hf, hfa, hb⟩
  depth := by have := h.depth; simp only [List.length_cons] at this ⊢; omega

theorem Inv.expanded_of_not_fresh {node child : String} {rest : List String} {below : List Frame}
    {fresh expanded : List String}
    (h : Inv g start target limit ⟨⟨node, child :: rest⟩ :: below, fresh, expanded⟩)
    (hfresh : child ∉ fresh) : child ∈ expanded := by
  by_contra hnew
  have hedge : g.Edge node child := h.rest ⟨node, child :: rest⟩ (.head _) child (.head _)
  exact hfresh ((h.fresh child).2 ⟨List.mem_map_of_mem hedge, hnew⟩)

theorem Inv.skip {node child : String} {rest : List String} {below : List Frame}
    {fresh expanded : List String}
    (h : Inv g start target limit ⟨⟨node, child :: rest⟩ :: below, fresh, expanded⟩)
    (hfresh : child ∉ fresh) :
    Inv g start target limit ⟨⟨node, rest⟩ :: below, fresh, expanded⟩ where
  fresh := h.fresh
  started := h.started
  missed := h.missed
  bottom _ := by simpa using h.bottom (by simp)
  nodup := h.nodup
  chain := h.chain
  onStack f hf := by
    rcases List.mem_cons.1 hf with rfl | hf
    · exact h.onStack ⟨node, child :: rest⟩ (.head _)
    · exact h.onStack f (.tail _ hf)
  rest f hf b hb := by
    rcases List.mem_cons.1 hf with rfl | hf
    · exact h.rest ⟨node, child :: rest⟩ (.head _) b (.tail _ hb)
    · exact h.rest f (.tail _ hf) b hb
  closed a ha b hab := by
    rcases h.closed a ha b hab with hb | ⟨f, hf, rfl, hb⟩
    · exact .inl hb
    · rcases List.mem_cons.1 hf with rfl | hf
      · rcases List.mem_cons.1 hb with rfl | hb
        · exact .inl (h.expanded_of_not_fresh hfresh)
        · exact .inr ⟨⟨node, rest⟩, .head _, rfl, hb⟩
      · exact .inr ⟨f, .tail _ hf, rfl, hb⟩
  depth := h.depth

theorem Inv.push {node child : String} {rest : List String} {below : List Frame}
    {fresh expanded : List String}
    (h : Inv g start target limit ⟨⟨node, child :: rest⟩ :: below, fresh, expanded⟩)
    (htarget : child ≠ target) (hfresh : child ∈ fresh) (hlimit : below.length + 1 < limit) :
    Inv g start target limit
      (State.expand g ⟨⟨node, rest⟩ :: below, fresh, expanded⟩ child) where
  fresh x := by
    simp only [State.expand, List.mem_filter, decide_eq_true_eq, h.fresh x, List.mem_append,
      List.mem_singleton, not_or]
    tauto
  started := List.mem_append_left _ h.started
  missed := by simpa [State.expand] using ⟨h.missed, htarget.symm⟩
  bottom _ := by simpa [State.expand] using h.bottom (by simp)
  nodup := by
    have hnew : child ∉ expanded := ((h.fresh child).1 hfresh).2
    refine List.nodup_cons.2 ⟨?_, h.nodup⟩
    intro hmem
    obtain ⟨f, hf, hchild⟩ := List.mem_map.1 hmem
    replace hchild : f.node = child := hchild
    rcases List.mem_cons.1 hf with rfl | hf
    · exact hnew (hchild ▸ h.onStack ⟨node, child :: rest⟩ (.head _))
    · exact hnew (hchild ▸ h.onStack f (.tail _ hf))
  chain := List.isChain_cons_cons.2
    ⟨h.rest ⟨node, child :: rest⟩ (.head _) child (.head _), h.chain⟩
  onStack f hf := by
    rcases List.mem_cons.1 hf with rfl | hf
    · simp [State.expand]
    · refine List.mem_append_left _ ?_
      rcases List.mem_cons.1 hf with rfl | hf
      · exact h.onStack ⟨node, child :: rest⟩ (.head _)
      · exact h.onStack f (.tail _ hf)
  rest f hf b hb := by
    rcases List.mem_cons.1 hf with rfl | hf
    · exact Digraph.mem_successors.1 hb
    · rcases List.mem_cons.1 hf with rfl | hf
      · exact h.rest ⟨node, child :: rest⟩ (.head _) b (.tail _ hb)
      · exact h.rest f (.tail _ hf) b hb
  closed a ha b hab := by
    rcases List.mem_append.1 ha with ha | ha
    · rcases h.closed a ha b hab with hb | ⟨f, hf, rfl, hb⟩
      · exact .inl (List.mem_append_left _ hb)
      · rcases List.mem_cons.1 hf with rfl | hf
        · rcases List.mem_cons.1 hb with rfl | hb
          · exact .inl (by simp [State.expand])
          · exact .inr ⟨⟨node, rest⟩, .tail _ (.head _), rfl, hb⟩
        · exact .inr ⟨f, .tail _ (.tail _ hf), rfl, hb⟩
    · obtain rfl := List.mem_singleton.1 ha
      exact .inr ⟨_, .head _, rfl, Digraph.mem_successors.2 hab⟩
  depth := by simp only [State.expand, List.length_cons]; omega

theorem Inv.extend {node child : String} {rest : List String} {below : List Frame}
    {fresh expanded : List String}
    (h : Inv g start target limit ⟨⟨node, child :: rest⟩ :: below, fresh, expanded⟩)
    (hnew : child ∉ expanded) {path : List String}
    (hpath : path = ((⟨node, rest⟩ :: below : List Frame).map (·.node)).reverse ++ [child]) :
    path.head? = some start ∧ path.Nodup ∧ path.IsChain g.Edge := by
  have hedge : g.Edge node child := h.rest ⟨node, child :: rest⟩ (.head _) child (.head _)
  have hrev :
      path = (child :: (⟨node, child :: rest⟩ :: below : List Frame).map (·.node)).reverse := by
    simp [hpath]
  have hbottom := h.bottom (by simp)
  rw [hrev]
  refine ⟨?_, ?_, ?_⟩
  · rw [List.head?_reverse]
    simpa using hbottom
  · refine List.nodup_reverse.2 (List.nodup_cons.2 ⟨?_, h.nodup⟩)
    -- all nodes on the stack are expanded, and the child is not
    intro hmem
    obtain ⟨f, hf, rfl⟩ := List.mem_map.1 hmem
    exact hnew (h.onStack f hf)
  · rw [List.isChain_reverse]
    exact List.isChain_cons_cons.2 ⟨hedge, h.chain⟩

theorem Inv.move (h : Inv g start target limit s) (hmove : Move g target limit s t) :
    Inv g start target limit t := by
  cases hmove with
  | pop => exact h.pop
  | skip _ hfresh => exact h.skip hfresh
  | push htarget hfresh hlimit => exact h.push htarget hfresh hlimit

/-- With an empty stack the expanded nodes are all that are in reach. -/
theorem Inv.expanded_of_reaches (h : Inv g start target limit s) (hstack : s.stack = [])
    {x : String} (hx : g.Reaches start x) : x ∈ s.expanded := by
  induction hx with
  | refl => exact h.started
  | tail _ hedge ih =>
    rcases h.closed _ ih _ hedge with hb | ⟨f, hf, -⟩
    · exact hb
    · rw [hstack] at hf
      cases hf

/-- The answer that ends a search is right. -/
theorem Inv.sound (h : Inv g start target limit s) (hstop : Stop target limit s outcome) :
    outcome.Sound g start target limit := by
  have hdepth := h.depth
  cases hstop with
  | clear => exact fun hreach => h.missed (h.expanded_of_reaches rfl hreach)
  | @found node rest below fresh expanded =>
    obtain ⟨hhead, hnodup, hchain⟩ := h.extend h.missed rfl
    refine ⟨⟨hhead, by simp, hnodup, hchain⟩, ?_⟩
    simp only [List.length_append, List.length_reverse, List.length_map, List.length_cons,
      List.length_nil] at hdepth ⊢
    omega
  | @tooDeep node child rest below fresh expanded htarget hfresh hlimit =>
    obtain ⟨hhead, hnodup, hchain⟩ := h.extend ((h.fresh child).1 hfresh).2 rfl
    refine ⟨hhead, hnodup, hchain, ?_, ?_⟩
    · intro hmem
      rcases List.mem_append.1 hmem with hmem | hmem
      · obtain ⟨f, hf, rfl⟩ := List.mem_map.1 (List.mem_reverse.1 hmem)
        rcases List.mem_cons.1 hf with rfl | hf
        · exact h.missed (h.onStack ⟨node, child :: rest⟩ (.head _))
        · exact h.missed (h.onStack f (.tail _ hf))
      · exact htarget (List.mem_singleton.1 hmem).symm
    · simp only [List.length_append, List.length_reverse, List.length_map, List.length_cons,
        List.length_nil] at hdepth ⊢
      omega

end Search

namespace Digraph

variable {start target : String}

/-- What holds at the beginning and is kept by every move holds in the state in which a search
ends. -/
theorem exists_last_of_search (g : Digraph) (limit : ℕ) (hne : start ≠ target)
    {P : Search.State → Prop} (hstart : P (.initial g start))
    (hmove : ∀ s t, Search.Inv g start target limit s → P s → Search.Move g target limit s t →
      P t) :
    ∃ last, Search.Inv g start target limit last ∧ P last ∧
      Search.Stop target limit last (g.search start target limit).1 ∧
      last.expanded = (g.search start target limit).2 := by
  have hboth : ∀ s t, Search.Inv g start target limit s ∧ P s → Search.Move g target limit s t →
      Search.Inv g start target limit t ∧ P t :=
    fun s t hs h => ⟨hs.1.move h, hmove s t hs.1 hs.2 h⟩
  rw [g.search_of_ne limit hne]
  obtain ⟨last, ⟨hinv, hlast⟩, hend⟩ :=
    Search.exists_last g target limit hboth ⟨Search.inv_start hne, hstart⟩
  exact ⟨last, hinv, hlast, hend⟩

theorem findPath_spec (g : Digraph) (start target : String) (limit : Nat) :
    (g.findPath start target limit).Sound g start target limit := by
  by_cases h : start = target
  · subst h
    rw [findPath, search_self]
    exact ⟨⟨rfl, rfl, by simp, by simp⟩, by simp⟩
  · obtain ⟨last, hinv, -, hstop, -⟩ :=
      g.exists_last_of_search limit h (P := fun _ => True) trivial fun _ _ _ _ _ => trivial
    exact hinv.sound hstop

end Digraph

end Statechart
