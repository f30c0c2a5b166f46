import Mathlib.Data.Finset.Dedup
import Mathlib.Data.Set.Card
import Statechart.Proofs.Graph.SearchOutcome

/-! A search decides whether the target can be reached, as long as the ceiling leaves room. A search
that is broken off has come to more nodes than the ceiling admits, all of them in reach and none of
them the target; where there are not that many, it ends with a path or without one. -/

namespace Statechart

namespace Digraph

variable {g : Digraph} {start target : String}

theorem length_le_encard {path : List String} (hhead : path.head? = some start)
    (hnodup : path.Nodup) (hchain : path.IsChain g.Edge) (htarget : target ∉ path) :
    (path.length : ℕ∞) ≤ {x | g.Reaches start x ∧ x ≠ target}.encard := by
  have hsubset : (path.toFinset : Set String) ⊆ {x | g.Reaches start x ∧ x ≠ target} := by
    intro x hx
    obtain ⟨rest, rfl⟩ := List.head?_eq_some_iff.1 hhead
    have hmem : x ∈ start :: rest := by simpa using hx
    exact ⟨reaches_of_isChain hchain hmem, fun heq => htarget (heq ▸ hmem)⟩
  have hle := Set.encard_le_encard hsubset
  rwa [Set.encard_coe_eq_coe_finsetCard, List.toFinset_card_of_nodup hnodup] at hle

theorem reaches_of_isPath {path : List String} (h : g.IsPath start target path) :
    g.Reaches start target := by
  obtain ⟨rest, rfl⟩ := List.head?_eq_some_iff.1 h.first
  exact reaches_of_isChain h.chain (List.mem_of_getLast? h.last)

/-- What the answers of a search say, and that a search is not broken off where no more nodes than
the ceiling admits are in reach: then it finds a path exactly if there is one. -/
theorem findPath_decides (g : Digraph) (start target : String) (limit : ℕ) :
    let answer := g.findPath start target limit
    (∀ path, answer = .found path →
      g.IsPath start target path ∧ path.length ≤ max limit 1 + 1) ∧
    (∀ path, answer = .tooDeep path →
      path.head? = some start ∧ path.IsChain g.Edge ∧ path.Nodup ∧ target ∉ path ∧
        path.length = max limit 1 + 1) ∧
    (answer = .clear → ¬ g.Reaches start target) ∧
    ({x | g.Reaches start x ∧ x ≠ target}.encard ≤ (max limit 1 : ℕ) →
      ((∃ path, answer = .found path) ↔ g.Reaches start target) ∧
      (answer = .clear ↔ ¬ g.Reaches start target)) := by
  intro answer
  have hsound := g.findPath_spec start target limit
  change answer.Sound g start target limit at hsound
  cases hanswer : answer with
  | clear =>
    rw [hanswer] at hsound
    refine ⟨nofun, nofun, fun _ => hsound, fun _ => ⟨?_, ?_⟩⟩
    · exact iff_of_false nofun hsound
    · exact iff_of_true rfl hsound
  | found path =>
    rw [hanswer] at hsound
    have hreach := reaches_of_isPath hsound.1
    refine ⟨?_, nofun, nofun, fun _ => ⟨?_, ?_⟩⟩
    · rintro _ ⟨⟩
      exact hsound
    · exact iff_of_true ⟨path, rfl⟩ hreach
    · exact iff_of_false nofun (not_not.2 hreach)
  | tooDeep path =>
    rw [hanswer] at hsound
    obtain ⟨hhead, hnodup, hchain, htarget, hlength⟩ := hsound
    refine ⟨nofun, ?_, nofun, ?_⟩
    · rintro _ ⟨⟩
      exact ⟨hhead, hchain, hnodup, htarget, hlength⟩
    · intro hfew
      have hle := (length_le_encard hhead hnodup hchain htarget).trans hfew
      rw [hlength, Nat.cast_le] at hle
      omega

/-- Two nodes that lead to each other, and a third one behind them. -/
def shuttle : Digraph := ⟨[("a", "b"), ("b", "a"), ("b", "c")]⟩

theorem reaches_shuttle {x : String} (h : shuttle.Reaches "a" x) : x ∈ ["a", "b", "c"] := by
  induction h with
  | refl => decide
  | @tail y z _ hedge _ =>
    have hedge : (y, z) ∈ [("a", "b"), ("b", "a"), ("b", "c")] := hedge
    simp only [List.mem_cons, Prod.mk.injEq, List.not_mem_nil, or_false] at hedge
    rcases hedge with ⟨-, rfl⟩ | ⟨-, rfl⟩ | ⟨-, rfl⟩ <;> decide

/-- With a ceiling of two nodes the third one is found, and with one of three a fourth is not. -/
theorem shuttle_decided :
    (∃ path, shuttle.findPath "a" "c" 2 = .found path) ∧ shuttle.findPath "a" "d" 3 = .clear := by
  have few (target : String) (nodes : Finset String)
      (h : ∀ x ∈ ["a", "b", "c"], x ≠ target → x ∈ nodes) :
      {x | shuttle.Reaches "a" x ∧ x ≠ target}.encard ≤ nodes.card := by
    rw [← Set.encard_coe_eq_coe_finsetCard]
    exact Set.encard_le_encard fun x hx => h x (reaches_shuttle hx.1) hx.2
  have hreach : shuttle.Reaches "a" "c" := by
    have hpath : ["a", "b", "c"].IsChain shuttle.Edge := by simp [Edge, shuttle]
    exact reaches_of_isChain hpath (by decide)
  have hmiss : ¬ shuttle.Reaches "a" "d" := fun h => absurd (reaches_shuttle h) (by decide)
  constructor
  · have hfew := few "c" {"a", "b"} (by decide)
    exact ((findPath_decides shuttle "a" "c" 2).2.2.2 hfew).1.2 hreach
  · have hfew := few "d" {"a", "b", "c"} (by decide)
    exact ((findPath_decides shuttle "a" "d" 3).2.2.2 hfew).2.2 hmiss

end Digraph

end Statechart
