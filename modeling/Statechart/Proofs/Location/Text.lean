import Std.Data.String.ToNat
import Statechart.Locator

/-! The text form of a locator can be read back. A name has no dot and no bracket in it, so the text
falls apart at the dots into the texts of the segments, and each of these says which segment it
is. -/

namespace Statechart

namespace Segment

/-- Whether the name of the segment can be told from what stands around it in a text. -/
structure IsPlain (s : Segment) : Prop where
  ne_nil : s.name.toList ≠ []
  dot : '.' ∉ s.name.toList
  bracket : '[' ∉ s.name.toList

instance (s : Segment) : Decidable s.IsPlain :=
  decidable_of_iff (s.name.toList ≠ [] ∧ '.' ∉ s.name.toList ∧ '[' ∉ s.name.toList)
    ⟨fun h => ⟨h.1, h.2.1, h.2.2⟩, fun h => ⟨h.1, h.2, h.3⟩⟩

/-- The position in brackets, where there is one. -/
def suffix (s : Segment) : List Char :=
  match s.index with
  | none => []
  | some i => '[' :: (Nat.toDigits 10 i ++ [']'])

theorem toList_text (s : Segment) : s.text.toList = s.name.toList ++ s.suffix := by
  unfold text suffix
  cases s.index with
  | none => simp
  | some i => simp [String.toList_append, toString]

theorem text_ne_empty {s : Segment} (h : s.IsPlain) : s.text ≠ "" := by
  intro htext
  have hnil : s.name.toList ++ s.suffix = [] := by rw [← toList_text, htext]; rfl
  exact h.ne_nil (List.append_eq_nil_iff.1 hnil).1

theorem dot_not_mem_text {s : Segment} (h : s.IsPlain) : '.' ∉ s.text.toList := by
  rw [toList_text, List.mem_append, not_or]
  refine ⟨h.dot, ?_⟩
  unfold suffix
  cases s.index with
  | none => exact List.not_mem_nil
  | some i =>
    have hdigits : '.' ∉ Nat.toDigits 10 i := by
      intro hmem
      have hdigit := Nat.isDigit_of_mem_toDigits (by decide) (by decide) hmem
      exact absurd hdigit (by decide)
    simp [hdigits]

theorem suffix_injective {s t : Segment} (h : s.suffix = t.suffix) : s.index = t.index := by
  unfold suffix at h
  cases hs : s.index with
  | none =>
    cases ht : t.index with
    | none => rfl
    | some j => simp [hs, ht] at h
  | some i =>
    cases ht : t.index with
    | none => simp [hs, ht] at h
    | some j =>
      simp only [hs, ht, List.cons.injEq, List.append_cancel_right_eq, true_and] at h
      have hrepr : Nat.repr i = Nat.repr j := by
        apply String.toList_injective
        rw [Nat.toList_repr, Nat.toList_repr, h]
      rw [Nat.repr_inj.1 hrepr]

/-- The text of a segment determines it: the name ends where the bracket stands. -/
theorem text_injective {s t : Segment} (hs : s.IsPlain) (ht : t.IsPlain) (h : s.text = t.text) :
    s = t := by
  have hchars : s.name.toList ++ s.suffix = t.name.toList ++ t.suffix := by
    rw [← toList_text, ← toList_text, h]
  have hcut {u : Segment} (hu : u.IsPlain) :
      (u.name.toList ++ u.suffix).takeWhile (· ≠ '[') = u.name.toList := by
    have hall : ∀ c ∈ u.name.toList, decide (c ≠ '[') = true := by
      intro c hc
      simp only [ne_eq, decide_not, Bool.not_eq_true', decide_eq_false_iff_not]
      rintro rfl
      exact hu.bracket hc
    rw [List.takeWhile_append_of_pos hall]
    unfold suffix
    cases u.index <;> simp
  have hname : s.name.toList = t.name.toList := by rw [← hcut hs, hchars, hcut ht]
  have hindex := suffix_injective (List.append_cancel_left (hname ▸ hchars))
  obtain ⟨name, i⟩ := s
  obtain ⟨name', j⟩ := t
  obtain rfl : name = name' := String.toList_injective hname
  obtain rfl : i = j := hindex
  rfl

end Segment

namespace Locator

variable {l : Locator}

/-- Once something is written, each segment adds a dot and its text. -/
theorem foldl_eq_intercalate (l : Locator) {out : String} (h : out ≠ "") :
    l.foldl (fun out s => (if out = "" then "" else out ++ ".") ++ s.text) out =
      ".".intercalate (out :: l.map (·.text)) := by
  induction l generalizing out with
  | nil => simp
  | cons s l ih =>
    have hne : out ++ "." ++ s.text ≠ "" := by
      intro hempty
      simp at hempty
    rw [List.foldl_cons, if_neg h, ih hne, List.map_cons, String.intercalate_cons_cons,
      String.intercalate_cons_append]

theorem text_eq_intercalate (h : ∀ s ∈ l, s.IsPlain) :
    l.text = ".".intercalate (l.map (·.text)) := by
  cases l with
  | nil => rfl
  | cons s l =>
    have hs : s.text ≠ "" := Segment.text_ne_empty (h s (.head _))
    rw [text, List.foldl_cons, if_pos rfl, String.empty_append, foldl_eq_intercalate l hs,
      List.map_cons]

theorem splitOn_text (h : ∀ s ∈ l, s.IsPlain) (hne : l ≠ []) :
    l.text.toList.splitOn '.' = l.map (·.text.toList) := by
  rw [text_eq_intercalate h, String.toList_intercalate, List.map_map]
  refine List.splitOn_intercalate '.' ?_ (by simpa using hne)
  intro chars hchars
  obtain ⟨s, hs, rfl⟩ := List.mem_map.1 hchars
  exact Segment.dot_not_mem_text (h s hs)

/-- A locator without a text before another one leaves its text as it is. -/
theorem text_append_of_empty {place : Locator} (h : place.text = "") (l : Locator) :
    (place ++ l).text = l.text := by
  unfold text at h ⊢
  rw [List.foldl_append, h]

theorem text_ne_empty (h : ∀ s ∈ l, s.IsPlain) (hne : l ≠ []) : l.text ≠ "" := by
  rw [text_eq_intercalate h]
  match l with
  | [] => exact absurd rfl hne
  | [s] => simpa using Segment.text_ne_empty (h s (.head _))
  | s :: t :: l =>
    rw [List.map_cons, List.map_cons, String.intercalate_cons_cons]
    simp

/-- The path that leads on from one path by another. -/
def join (p q : String) : String := if p = "" then q else if q = "" then p else p ++ "." ++ q

/-- The text of a locator below another one, whatever the names in that one are. -/
theorem text_append (base : Locator) {l : Locator} (h : ∀ s ∈ l, s.IsPlain) :
    (base ++ l).text = join base.text l.text := by
  unfold join
  by_cases hbase : base.text = ""
  · rw [if_pos hbase, text_append_of_empty hbase]
  · rw [if_neg hbase]
    cases l with
    | nil => rw [List.append_nil, if_pos (show text [] = "" from rfl)]
    | cons s l =>
      have htext : (base ++ s :: l).text =
          ".".intercalate (base.text :: (s :: l).map (·.text)) := by
        rw [← foldl_eq_intercalate (s :: l) hbase]
        exact List.foldl_append
      rw [if_neg (text_ne_empty h (by simp)), htext, text_eq_intercalate h, List.map_cons,
        String.intercalate_cons_cons]

theorem eq_of_map_text_eq {l' : Locator} (hl : ∀ s ∈ l, s.IsPlain) (hl' : ∀ s ∈ l', s.IsPlain)
    (h : l.map (·.text.toList) = l'.map (·.text.toList)) : l = l' := by
  induction l generalizing l' with
  | nil => exact (List.map_eq_nil_iff.1 h.symm).symm
  | cons s l ih =>
    cases l' with
    | nil => cases h
    | cons t l' =>
      obtain ⟨htext, hrest⟩ := List.cons.inj h
      rw [Segment.text_injective (hl s (.head _)) (hl' t (.head _)) (String.toList_injective htext),
        ih (fun s hs => hl s (.tail _ hs)) (fun s hs => hl' s (.tail _ hs)) hrest]

/-- The text of a locator determines it. -/
theorem text_injective {l' : Locator} (hl : ∀ s ∈ l, s.IsPlain) (hl' : ∀ s ∈ l', s.IsPlain)
    (h : l.text = l'.text) : l = l' := by
  cases l with
  | nil =>
    cases l' with
    | nil => rfl
    | cons t l' => exact absurd h.symm (text_ne_empty hl' nofun)
  | cons s l =>
    cases l' with
    | nil => exact absurd h (text_ne_empty hl nofun)
    | cons t l' =>
      refine eq_of_map_text_eq hl hl' ?_
      rw [← splitOn_text hl nofun, h, splitOn_text hl' nofun]

end Locator

end Statechart
