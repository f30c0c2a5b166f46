import Mathlib.Data.List.Flatten
import Mathlib.Data.List.Perm.Basic
import Statechart.Proofs.Survey.Tree

/-! The order of a tree. No encounter occurs twice in it, and the parts of an element stand in it in
the order in which the element lists them. So of two parts it is settled which is met first. -/

namespace Statechart

theorem not_sublist_swap {α : Type} {l : List α} {a b : α} (hl : l.Nodup)
    (h : [a, b].Sublist l) : ¬ [b, a].Sublist l := by
  induction l with
  | nil => cases h
  | cons c l ih =>
    intro h'
    obtain ⟨hc, hl⟩ := List.nodup_cons.1 hl
    cases h with
    | cons _ h =>
      cases h' with
      | cons _ h' => exact ih hl h h'
      | cons_cons _ h' => exact hc (h.subset (by simp))
    | cons_cons _ h =>
      cases h' with
      | cons _ h' => exact hc (h'.subset (by simp))
      | cons_cons _ h' => exact hc (h.subset (by simp))

namespace Encounter

theorem place_of_mem_part_tree {x y : Encounter} {p : Part} (h : y ∈ (x.part p).tree) :
    ∃ l, y.place = x.place ++ p.step :: l := by
  obtain ⟨way, -, rfl⟩ := mem_tree.1 h
  refine ⟨way.map (·.step), ?_⟩
  rw [place_along]
  simp [part]

theorem nodup_tree (x : Encounter) : x.tree.Nodup := by
  induction hs : sizeOf x.element using Nat.strongRecOn generalizing x with
  | ind n ih =>
    rw [tree_eq, List.nodup_cons, List.nodup_flatMap]
    refine ⟨?_, fun p hp => ih _ (hs ▸ Element.sizeOf_of_mem_parts hp) _ rfl, ?_⟩
    · intro hx
      obtain ⟨p, -, hx⟩ := List.mem_flatMap.1 hx
      obtain ⟨l, hl⟩ := place_of_mem_part_tree hx
      simp at hl
    · have hsteps : x.element.parts.Pairwise fun p q => p.step ≠ q.step :=
        List.pairwise_map.1 x.element.nodup_map_step_parts
      apply hsteps.imp
      intro p q hne y hy hy'
      obtain ⟨l, hl⟩ := place_of_mem_part_tree hy
      obtain ⟨l', hl'⟩ := place_of_mem_part_tree hy'
      have := List.append_cancel_left (hl.symm.trans hl')
      exact hne (List.cons.inj this).1

/-- A tree consists of its root and the parts of all that is in it. -/
theorem tree_perm (x : Encounter) :
    x.tree.Perm (x :: x.tree.flatMap fun z => z.element.parts.map z.part) := by
  induction hs : sizeOf x.element using Nat.strongRecOn generalizing x with
  | ind n ih =>
    have hparts (p : Part) (hp : p ∈ x.element.parts) :=
      ih _ (hs ▸ Element.sizeOf_of_mem_parts hp) (x.part p) rfl
    rw [tree_eq, List.flatMap_cons, List.flatMap_assoc]
    refine .cons _ ((List.Perm.flatMap_left _ hparts).trans ?_)
    have hsplit := (List.flatMap_append_perm x.element.parts (fun p => [x.part p]) fun p =>
      (x.part p).tree.flatMap fun z => z.element.parts.map z.part).symm
    rwa [← List.map_eq_flatMap] at hsplit

theorem tree_sublist {x y : Encounter} (h : y ∈ x.tree) : y.tree.Sublist x.tree := by
  refine tree_induction (P := fun y => y.tree.Sublist x.tree) (List.Sublist.refl _) ?_ y h
  intro y _ hy p hp
  refine List.Sublist.trans ?_ hy
  rw [tree_eq y]
  have hmem : (y.part p).tree ∈ y.element.parts.map fun p => (y.part p).tree :=
    List.mem_map.2 ⟨p, hp, rfl⟩
  exact (List.sublist_flatten_of_mem hmem).cons _

theorem singleton_sublist_tree (x : Encounter) : [x].Sublist x.tree := by
  rw [tree_eq]
  exact List.sublist_append_left [x] _

theorem self_mem_tree (x : Encounter) : x ∈ x.tree :=
  List.singleton_sublist.1 (singleton_sublist_tree x)

/-- Parts are met in the order in which their owner lists them. -/
theorem parts_sublist_tree {x y : Encounter} (hy : y ∈ x.tree) {p q : Part}
    (h : [p, q].Sublist y.element.parts) : [y.part p, y.part q].Sublist x.tree := by
  have hpq : [y.part p, y.part q].Sublist ([p, q].flatMap fun p => (y.part p).tree) := by
    simpa using (singleton_sublist_tree (y.part p)).append (singleton_sublist_tree (y.part q))
  have hparts : (y.element.parts.flatMap fun p => (y.part p).tree).Sublist y.tree := by
    rw [tree_eq y]
    exact List.sublist_cons_self _ _
  exact (hpq.trans (h.flatMap _)).trans (hparts.trans (tree_sublist hy))

end Encounter

end Statechart
