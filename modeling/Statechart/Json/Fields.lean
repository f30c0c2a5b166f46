import Statechart.Json.Basic

/-! Fields in ascending order of keys, each key once. Objects with the same values under the same
keys have the same fields in this order, whatever the order in which the values came. -/

namespace Statechart.Json

/-- Puts a value in its place among fields in ascending order, instead of one under its key. -/
def putField (key : String) (value : Json) : List (String × Json) → List (String × Json)
  | [] => [(key, value)]
  | (k, v) :: rest =>
    if key < k then (key, value) :: (k, v) :: rest
    else if key = k then (key, value) :: rest
    else (k, v) :: putField key value rest

theorem mem_keys_putField {key k : String} {value : Json} {fields : List (String × Json)} :
    k ∈ (putField key value fields).map (·.1) ↔ k = key ∨ k ∈ fields.map (·.1) := by
  induction fields with
  | nil => simp [putField]
  | cons e rest ih =>
    obtain ⟨l, v⟩ := e
    simp only [putField]
    split
    · simp
    split
    · next heq => simp [heq]
    · rw [List.map_cons, List.mem_cons, ih, List.map_cons, List.mem_cons]
      exact or_left_comm

theorem pairwise_putField {key : String} {value : Json} {fields : List (String × Json)}
    (h : (fields.map (·.1)).Pairwise (· < ·)) :
    ((putField key value fields).map (·.1)).Pairwise (· < ·) := by
  induction fields with
  | nil => simp [putField]
  | cons e rest ih =>
    obtain ⟨l, v⟩ := e
    simp only [List.map_cons, List.pairwise_cons] at h
    simp only [putField]
    split
    · next hlt =>
      simp only [List.map_cons, List.pairwise_cons, List.mem_cons]
      refine ⟨?_, h⟩
      rintro k (rfl | hk)
      · exact hlt
      · exact String.lt_trans hlt (h.1 k hk)
    split
    · next heq =>
      subst heq
      exact List.pairwise_cons.2 h
    · next hlt hne =>
      refine List.pairwise_cons.2 ⟨fun k hk => ?_, ih h.2⟩
      rcases mem_keys_putField.1 hk with rfl | hk
      · exact Std.lt_of_le_of_ne (String.not_lt.1 hlt) (Ne.symm hne)
      · exact h.1 k hk

end Statechart.Json
