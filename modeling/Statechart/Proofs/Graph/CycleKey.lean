import Mathlib.Data.List.Rotate
import Statechart.Graph.Basic

/-! The key of a cycle names it up to rotation: two cycles without repeated nodes have one key
exactly when one is the other opened at another node. -/

namespace Statechart

theorem leastId_eq_some {l : List String} {m : String} (h : leastId l = some m) :
    m ∈ l ∧ ∀ x ∈ l, m ≤ x := by
  induction l generalizing m with
  | nil => cases h
  | cons a rest ih =>
    unfold leastId at h
    split at h
    · next hnone =>
      cases h
      cases rest with
      | nil => simp
      | cons b rest => unfold leastId at hnone; split at hnone <;> cases hnone
    · next b hb =>
      obtain ⟨hmem, hle⟩ := ih hb
      have hm : (if b < a then b else a) = m := by simpa using h
      split_ifs at hm with hlt
      · subst hm
        refine ⟨by simp [hmem], ?_⟩
        intro x hx
        rcases List.mem_cons.1 hx with rfl | hx
        · exact Std.le_of_lt hlt
        · exact hle x hx
      · subst hm
        refine ⟨by simp, ?_⟩
        intro x hx
        rcases List.mem_cons.1 hx with rfl | hx
        · exact String.le_refl x
        · exact String.le_trans (String.not_lt.1 hlt) (hle x hx)

theorem leastId_isSome {a : String} {l : List String} : ∃ m, leastId (a :: l) = some m := by
  unfold leastId
  split
  · exact ⟨a, rfl⟩
  · exact ⟨_, rfl⟩

/-- The least ID depends on the members of a list only. -/
theorem leastId_congr {l l' : List String} (h : ∀ x, x ∈ l ↔ x ∈ l') : leastId l = leastId l' := by
  cases l with
  | nil =>
    cases l' with
    | nil => rfl
    | cons b l' => exact absurd ((h b).2 (by simp)) (by simp)
  | cons a l =>
    cases l' with
    | nil => exact absurd ((h a).1 (by simp)) (by simp)
    | cons b l' =>
      obtain ⟨m, hm⟩ := leastId_isSome (a := a) (l := l)
      obtain ⟨n, hn⟩ := leastId_isSome (a := b) (l := l')
      have hm' := leastId_eq_some hm
      have hn' := leastId_eq_some hn
      rw [hm, hn, String.le_antisymm (hm'.2 n ((h n).2 hn'.1)) (hn'.2 m ((h m).1 hm'.1))]

theorem rotateToLeast_isRotated (l : List String) : rotateToLeast l ~r l := by
  unfold rotateToLeast
  split
  · next h =>
    cases l with
    | nil => exact .refl []
    | cons a l =>
      obtain ⟨m, hm⟩ := leastId_isSome (a := a) (l := l)
      rw [hm] at h; cases h
  · next m h =>
    refine List.isRotated_append.trans ?_
    rw [List.takeWhile_append_dropWhile]

theorem head_rotateToLeast {l : List String} {m : String} (h : leastId l = some m) :
    (rotateToLeast l).head? = some m := by
  obtain ⟨hmem, -⟩ := leastId_eq_some h
  obtain ⟨as, bs, rfl, has⟩ := List.eq_append_cons_of_mem hmem
  have hdrop : (as ++ m :: bs).dropWhile (· ≠ m) = m :: bs := by
    rw [List.dropWhile_append_of_pos (by simpa using fun x hx (he : x = m) => has (he ▸ hx))]
    simp
  unfold rotateToLeast
  rw [h]
  simp only [hdrop, List.cons_append, List.head?_cons]

/-- A list without repetitions has one rotation for each head. -/
theorem eq_of_isRotated_of_head {l l' : List String} (hn : l.Nodup) (h : l ~r l')
    (hhead : l.head? = l'.head?) : l = l' := by
  cases l with
  | nil => exact (List.isRotated_nil_iff'.1 h)
  | cons a rest =>
    obtain ⟨n, rfl⟩ := h
    have hpos : 0 < (a :: rest).length := by simp
    rw [← List.rotate_mod] at hhead ⊢
    set k := n % (a :: rest).length
    have hk : k < (a :: rest).length := Nat.mod_lt _ hpos
    rw [List.head?_rotate hk, List.getElem?_eq_getElem hk, List.head?_cons] at hhead
    have h0 : (a :: rest)[0] = (a :: rest)[k] := by simpa using hhead
    rw [← (hn.getElem_inj_iff).1 h0, List.rotate_zero]

theorem rotateToLeast_eq_iff {l l' : List String} (hn : l.Nodup) :
    rotateToLeast l = rotateToLeast l' ↔ l ~r l' := by
  constructor
  · intro h
    exact (rotateToLeast_isRotated l).symm.trans (h ▸ rotateToLeast_isRotated l')
  · intro h
    have hleast : leastId l = leastId l' := leastId_congr fun x => h.mem_iff
    have hrot : rotateToLeast l ~r rotateToLeast l' :=
      (rotateToLeast_isRotated l).trans (h.trans (rotateToLeast_isRotated l').symm)
    refine eq_of_isRotated_of_head ((rotateToLeast_isRotated l).nodup_iff.2 hn) hrot ?_
    cases hl : leastId l with
    | none => unfold rotateToLeast; rw [← hleast, hl]
    | some m => rw [head_rotateToLeast hl, head_rotateToLeast (hleast ▸ hl)]

theorem cycleKey_close (a : String) (l : List String) :
    cycleKey (a :: (l ++ [a])) = rotateToLeast (a :: l) := by
  have hlen : ¬ (a :: (l ++ [a])).length ≤ 1 := by simp
  unfold cycleKey
  rw [if_neg hlen, ← List.cons_append, List.dropLast_concat]

/-- The key of a cycle that comes to no node twice is the cycle opened at its least node. A closed
walk has the same key exactly if it is the cycle opened at one of its nodes. -/
theorem cycleKey_eq_iff_isRotated {a b : String} {l m : List String} (hl : (a :: l).Nodup) :
    (cycleKey (a :: (l ++ [a])) = cycleKey (b :: (m ++ [b])) ↔ (b :: m) ~r (a :: l)) ∧
    cycleKey (a :: (l ++ [a])) ~r (a :: l) ∧
    ∃ least ∈ a :: l, (cycleKey (a :: (l ++ [a]))).head? = some least ∧
      ∀ x ∈ a :: l, least ≤ x := by
  rw [cycleKey_close, cycleKey_close]
  obtain ⟨least, hleast⟩ := leastId_isSome (a := a) (l := l)
  obtain ⟨hmem, hle⟩ := leastId_eq_some hleast
  have hkeys : rotateToLeast (a :: l) = rotateToLeast (b :: m) ↔ (b :: m) ~r (a :: l) :=
    (rotateToLeast_eq_iff hl).trans List.isRotated_comm
  exact ⟨hkeys, rotateToLeast_isRotated _, least, hmem, head_rotateToLeast hleast, hle⟩

/-- A triangle has one key from each of its nodes, and another one when it is run backwards. -/
theorem triangle_keys :
    ["b", "c", "a"].Nodup ∧
    cycleKey ["b", "c", "a", "b"] = cycleKey ["c", "a", "b", "c"] ∧
    cycleKey ["b", "c", "a", "b"] ≠ cycleKey ["a", "c", "b", "a"] := by
  have hnodup : ["b", "c", "a"].Nodup := by decide
  refine ⟨hnodup, ?_, ?_⟩
  · have hturn : ["c", "a", "b"] ~r ["b", "c", "a"] := ⟨2, rfl⟩
    exact (cycleKey_eq_iff_isRotated hnodup).1.2 hturn
  · intro heq
    have hback : ["a", "c", "b"] ~r ["b", "c", "a"] := (cycleKey_eq_iff_isRotated hnodup).1.1 heq
    exact absurd hback (by decide)

end Statechart
