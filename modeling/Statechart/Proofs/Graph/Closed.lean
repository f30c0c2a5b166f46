import Mathlib.Data.List.Chain
import Mathlib.Data.List.Rotate
import Mathlib.Logic.Relation
import Statechart.Graph.Basic

/-! Paths and closed walks of a digraph. A closed walk is written with its first node again at the
end, so its steps are the pairs of neighbours in it. The steps of a closed walk do not depend on
the node at which it is opened, which is what makes one report of a cycle enough for all of its
edges. -/

namespace Statechart

/-- The pairs of neighbours in a list of nodes. -/
def steps (walk : List String) : List (String × String) := walk.zip walk.tail

@[simp] theorem steps_cons_cons (a b : String) (l : List String) :
    steps (a :: b :: l) = (a, b) :: steps (b :: l) := rfl

@[simp] theorem steps_singleton (a : String) : steps [a] = [] := rfl

theorem exists_append_of_mem_steps {walk : List String} {a b : String} (h : (a, b) ∈ steps walk) :
    ∃ l₁ l₂, walk = l₁ ++ a :: b :: l₂ := by
  induction walk with
  | nil => cases h
  | cons x l ih =>
    cases l with
    | nil => cases h
    | cons y l =>
      rw [steps_cons_cons, List.mem_cons] at h
      rcases h with h | h
      · cases h; exact ⟨[], l, rfl⟩
      · obtain ⟨l₁, l₂, heq⟩ := ih h
        exact ⟨x :: l₁, l₂, by rw [heq]; rfl⟩

/-- Closing a list of nodes makes each of them lead to the next one around. -/
theorem steps_close (a : String) (l : List String) :
    steps (a :: (l ++ [a])) = (a :: l).zip ((a :: l).rotate 1) := by
  have h : (a :: l ++ [a]).zip (l ++ [a] ++ []) = (a :: l).zip (l ++ [a]) ++ [a].zip [] :=
    List.zip_append (by simp)
  simpa [steps] using h

theorem mem_steps_of_isRotated {a b : String} {l m : List String} (h : (a :: l) ~r (b :: m))
    {e : String × String} (he : e ∈ steps (a :: (l ++ [a]))) : e ∈ steps (b :: (m ++ [b])) := by
  obtain ⟨n, hn⟩ := h
  rw [steps_close] at he ⊢
  have hrot : (a :: l).zip ((a :: l).rotate 1) ~r (b :: m).zip ((b :: m).rotate 1) := by
    refine ⟨n, ?_⟩
    rw [List.zip, List.zipWith_rotate_distrib _ _ _ _ (by simp), hn, List.rotate_rotate,
      Nat.add_comm, ← List.rotate_rotate, hn]
  exact hrot.mem_iff.1 he

namespace Digraph

def Edge (g : Digraph) (a b : String) : Prop := (a, b) ∈ g.edges

def Reaches (g : Digraph) : String → String → Prop := Relation.ReflTransGen g.Edge

/-- A path from one node to another that comes to no node twice. -/
structure IsPath (g : Digraph) (a b : String) (path : List String) : Prop where
  first : path.head? = some a
  last : path.getLast? = some b
  nodup : path.Nodup
  chain : path.IsChain g.Edge

/-- A walk along edges that ends where it starts, after at least one step. -/
def ClosedWalk (g : Digraph) (walk : List String) : Prop :=
  (∃ a l, walk = a :: (l ++ [a])) ∧ walk.IsChain g.Edge

def Acyclic (g : Digraph) : Prop := ∀ walk, ¬ g.ClosedWalk walk

variable {g : Digraph}

theorem isChain_iff_steps {walk : List String} :
    walk.IsChain g.Edge ↔ ∀ d ∈ steps walk, d ∈ g.edges := by
  induction walk with
  | nil => simp [steps]
  | cons a l ih =>
    cases l with
    | nil => simp
    | cons b l =>
      rw [List.isChain_cons_cons, ih, steps_cons_cons, List.forall_mem_cons]
      rfl

theorem ClosedWalk.exists_step {walk : List String} (h : g.ClosedWalk walk) :
    ∃ d, d ∈ steps walk := by
  obtain ⟨⟨a, l, rfl⟩, -⟩ := h
  cases l with
  | nil => exact ⟨_, .head _⟩
  | cons b l => exact ⟨_, .head _⟩

theorem reaches_of_isChain {a b : String} {l : List String} (h : (a :: l).IsChain g.Edge)
    (hb : b ∈ a :: l) : g.Reaches a b := by
  induction l generalizing a with
  | nil => rw [List.mem_singleton.1 hb]; exact .refl
  | cons c l ih =>
    rcases List.mem_cons.1 hb with rfl | hb
    · exact .refl
    · rw [List.isChain_cons_cons] at h
      exact .head h.1 (ih h.2 hb)

/-- The end of a step of a closed walk leads back to the start of the step. -/
theorem ClosedWalk.reaches {walk : List String} (h : g.ClosedWalk walk) {a b : String}
    (hs : (a, b) ∈ steps walk) : g.Reaches b a := by
  obtain ⟨⟨c, l, rfl⟩, hchain⟩ := h
  obtain ⟨l₁, l₂, heq⟩ := exists_append_of_mem_steps hs
  -- from `b` on to the end of the walk, which is also its start, and from there to `a`
  have hca : g.Reaches c a := reaches_of_isChain hchain (by rw [heq]; simp)
  have hlast : (b :: l₂).getLast? = some c := by
    have := congrArg List.getLast? heq
    simpa [List.getLast?_append, List.getLast?_cons] using this.symm
  have hbc : g.Reaches b c := by
    rw [heq] at hchain
    have htail := (List.isChain_append_cons_cons.1 hchain).2.2
    exact reaches_of_isChain htail (List.mem_of_getLast? hlast)
  exact hbc.trans hca

/-- No closed walk follows edges along which a rank falls. -/
theorem acyclic_of_rank (rank : String → ℕ) (h : ∀ a b, g.Edge a b → rank b < rank a) :
    g.Acyclic := by
  intro walk hwalk
  have hle : ∀ {a b}, g.Reaches a b → rank b ≤ rank a := by
    intro a b hab
    induction hab with
    | refl => exact le_rfl
    | tail _ hedge ih => exact (h _ _ hedge).le.trans ih
  obtain ⟨⟨a, b⟩, hd⟩ := hwalk.exists_step
  have hlt : rank b < rank a := h a b (isChain_iff_steps.1 hwalk.2 _ hd)
  have hback : rank a ≤ rank b := hle (hwalk.reaches hd)
  omega

end Digraph

end Statechart
