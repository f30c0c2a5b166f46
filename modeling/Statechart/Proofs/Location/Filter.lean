import Statechart.Finding.Collection
import Statechart.Proofs.Location.Text

/-! The filter of findings by a path. It compares texts, up to a character at which a path may end.
For locators with plain names this says the same as a comparison of segments: the start has to be
taken over as it is up to its last segment, and there the name has to be the same and the position,
where the start has one. -/

namespace Statechart

/-- A text is in one way only a run of characters of a class with a rest behind it that does not
start with one. -/
theorem eq_of_append_eq {p : Char → Prop} {u v w z : List Char} (hu : ∀ c ∈ u, p c)
    (hv : ∀ c ∈ v, p c) (hw : ∀ c ∈ w.head?, ¬ p c) (hz : ∀ c ∈ z.head?, ¬ p c)
    (h : u ++ w = v ++ z) : u = v ∧ w = z := by
  induction u generalizing v with
  | nil =>
    cases v with
    | nil => exact ⟨rfl, h⟩
    | cons d v =>
      have hd : w.head? = some d := by rw [← List.nil_append w, h]; rfl
      exact absurd (hv d (.head _)) (hw d hd)
  | cons c u ih =>
    cases v with
    | nil =>
      have hc : z.head? = some c := by rw [← List.nil_append z, ← h]; rfl
      exact absurd (hu c (.head _)) (hz c hc)
    | cons d v =>
      obtain ⟨rfl, htail⟩ := List.cons.inj h
      obtain ⟨rfl, hrest⟩ :=
        ih (fun c hc => hu c (.tail _ hc)) (fun c hc => hv c (.tail _ hc)) htail
      exact ⟨rfl, hrest⟩

namespace Segment

variable {s : Segment}

theorem suffix_of_none (h : s.index = none) : s.suffix = [] := by rw [suffix, h]

theorem suffix_of_some {i : Nat} (h : s.index = some i) :
    s.suffix = '[' :: (Nat.toDigits 10 i ++ [']']) := by
  rw [suffix, h]

theorem toList_text_item (name : String) (i : Nat) :
    (item name i).text.toList = name.toList ++ '[' :: (Nat.toDigits 10 i ++ [']']) := by
  rw [toList_text, suffix_of_some rfl]
  rfl

theorem eq_of_digits_append_eq {i j : Nat} {w z : List Char}
    (h : Nat.toDigits 10 i ++ ']' :: w = Nat.toDigits 10 j ++ ']' :: z) : i = j := by
  have hdigit (n : Nat) : ∀ c ∈ Nat.toDigits 10 n, c.isDigit = true := fun c hc =>
    Nat.isDigit_of_mem_toDigits (by decide) (by decide) hc
  have hbracket (l : List Char) : ∀ c ∈ (']' :: l).head?, ¬ c.isDigit = true := by
    rintro c ⟨⟩
    decide
  have hdigits := (eq_of_append_eq (hdigit i) (hdigit j) (hbracket w) (hbracket z) h).1
  calc
    i = Nat.ofDigitChars 10 (Nat.toDigits 10 i) 0 := Nat.ofDigitChars_ten_toDigits.symm
    _ = Nat.ofDigitChars 10 (Nat.toDigits 10 j) 0 := by rw [hdigits]
    _ = j := Nat.ofDigitChars_ten_toDigits

/-- Whether a path that ends in a segment leads to another segment in its place: the names are the
same, and the positions are if the path gives one. -/
def Admits (last x : Segment) : Prop :=
  x.name = last.name ∧ ∀ i, last.index = some i → x.index = some i

end Segment

namespace Findings

/-- A path may end where nothing follows, or a dot or a bracket. -/
def AtBoundary (rest : List Char) : Prop :=
  rest = [] ∨ rest.head? = some '.' ∨ rest.head? = some '['

theorem AtBoundary.stops {rest : List Char} (h : AtBoundary rest) :
    ∀ c ∈ rest.head?, ¬ (c ≠ '.' ∧ c ≠ '[') := by
  intro c hc
  rcases h with rfl | hdot | hbracket
  · cases hc
  · rw [hdot] at hc; cases hc; simp
  · rw [hbracket] at hc; cases hc; simp

theorem AtBoundary.suffix_append {rest : List Char} (h : AtBoundary rest) (x : Segment) :
    AtBoundary (x.suffix ++ rest) := by
  unfold Segment.suffix
  cases x.index with
  | none => exact h
  | some i => exact .inr (.inr rfl)

theorem below?_eq_some_iff {path start rest : List Char} :
    below? path start = some rest ↔ path = start ++ rest ∧ AtBoundary rest := by
  induction start generalizing path with
  | nil =>
    rw [below?, Option.ite_none_right_eq_some, Option.some.injEq, List.nil_append]
    constructor
    · rintro ⟨h, rfl⟩
      exact ⟨rfl, h⟩
    · rintro ⟨rfl, h⟩
      exact ⟨h, rfl⟩
  | cons d start ih =>
    cases path with
    | nil => simp [below?]
    | cons c path =>
      rw [below?]
      split
      · next h => rw [ih, h, List.cons_append, List.cons.injEq, eq_self, true_and]
      · next h => simp [h]

theorem isUnder_iff {path start : String} (h : start ≠ "") :
    isUnder path start = true ↔
      ∃ rest, path.toList = start.toList ++ rest ∧ AtBoundary rest := by
  rw [isUnder, Bool.or_eq_true, Option.isSome_iff_exists]
  simp [h, below?_eq_some_iff]

end Findings

namespace Locator

open Findings (AtBoundary)

variable {s p : Locator}

/-- What the text of a locator goes on with after its first segment. -/
def continuation : Locator → List Char
  | [] => []
  | s :: l => '.' :: (text (s :: l)).toList

theorem atBoundary_continuation (l : Locator) : AtBoundary l.continuation := by
  cases l with
  | nil => exact .inl rfl
  | cons s l => exact .inr (.inl rfl)

theorem dot_of_mem_continuation {l : Locator} {c : Char} (h : c ∈ l.continuation.head?) :
    c = '.' := by
  cases l with
  | nil => cases h
  | cons s l => exact (Option.some.inj h).symm

theorem toList_text_append {base l : Locator} (hbase : base.text ≠ "") (hl : ∀ x ∈ l, x.IsPlain) :
    (base ++ l).text.toList = base.text.toList ++ l.continuation := by
  rw [text_append base hl, join, if_neg hbase]
  cases l with
  | nil => rw [if_pos (show text [] = "" from rfl), continuation, List.append_nil]
  | cons s l =>
    rw [if_neg (text_ne_empty hl nofun), String.toList_append, String.toList_append,
      List.append_assoc]
    rfl

theorem toList_text_cons {x : Segment} {l : Locator} (hx : x.IsPlain) (hl : ∀ y ∈ l, y.IsPlain) :
    (text (x :: l)).toList = x.text.toList ++ l.continuation := by
  have hne : text [x] ≠ "" := Segment.text_ne_empty hx
  exact toList_text_append hne hl

/-- The text of a place in front of its last segment does not depend on that segment. -/
theorem text_snoc (q : Locator) (x : Segment) :
    (q ++ [x]).text = (if q.text = "" then "" else q.text ++ ".") ++ x.text := by
  rw [text, List.foldl_append]
  rfl

/-- Where two texts go on alike after a segment each, up to a boundary on one side, the segment on
that side admits the other one. -/
theorem admits_of_text_eq {last x : Segment} (hlast : last.IsPlain) (hx : x.IsPlain) {l : Locator}
    {rest : List Char} (hrest : AtBoundary rest)
    (h : x.text.toList ++ l.continuation = last.text.toList ++ rest) : last.Admits x := by
  have hname {y : Segment} (hy : y.IsPlain) : ∀ c ∈ y.name.toList, c ≠ '.' ∧ c ≠ '[' :=
    fun c hc => ⟨fun heq => hy.dot (heq ▸ hc), fun heq => hy.bracket (heq ▸ hc)⟩
  rw [Segment.toList_text, Segment.toList_text, List.append_assoc, List.append_assoc] at h
  obtain ⟨hnames, hsuffix⟩ := eq_of_append_eq (hname hx) (hname hlast)
    (l.atBoundary_continuation.suffix_append x).stops (hrest.suffix_append last).stops h
  refine ⟨String.toList_injective hnames, fun i hi => ?_⟩
  rw [Segment.suffix_of_some hi, List.cons_append, List.append_assoc] at hsuffix
  cases hj : x.index with
  | none =>
    rw [Segment.suffix_of_none hj, List.nil_append] at hsuffix
    have hhead : '[' ∈ l.continuation.head? := by rw [hsuffix]; rfl
    exact absurd (dot_of_mem_continuation hhead) (by decide)
  | some j =>
    rw [Segment.suffix_of_some hj, List.cons_append, List.append_assoc] at hsuffix
    rw [Segment.eq_of_digits_append_eq (List.cons.inj hsuffix).2]

theorem exists_of_admits {last x : Segment} (h : last.Admits x) {tail : List Char}
    (htail : AtBoundary tail) :
    ∃ rest, x.text.toList ++ tail = last.text.toList ++ rest ∧ AtBoundary rest := by
  obtain ⟨hname, hindex⟩ := h
  cases hi : last.index with
  | none =>
    refine ⟨x.suffix ++ tail, ?_, htail.suffix_append x⟩
    rw [Segment.toList_text, Segment.toList_text, hname, Segment.suffix_of_none hi,
      List.append_nil, List.append_assoc]
  | some i =>
    refine ⟨tail, ?_, htail⟩
    rw [Segment.toList_text, Segment.toList_text, hname, Segment.suffix_of_some hi,
      Segment.suffix_of_some (hindex i hi)]

/-- A locator whose text goes on from the text of another one takes over its segments. -/
theorem exists_segments_of_text {rest : List Char} (hs : ∀ x ∈ s, x.IsPlain)
    (hp : ∀ x ∈ p, x.IsPlain) (hne : p ≠ []) (hrest : AtBoundary rest)
    (h : s.text.toList = p.text.toList ++ rest) :
    ∃ q last x more, p = q ++ [last] ∧ s = q ++ x :: more ∧ last.Admits x := by
  induction p generalizing s with
  | nil => exact absurd rfl hne
  | cons a p ih =>
    obtain ⟨ha, hbelow⟩ := List.forall_mem_cons.1 hp
    cases s with
    | nil =>
      have hempty : (text (a :: p)).toList = [] := (List.append_eq_nil_iff.1 h.symm).1
      exact absurd (String.toList_injective hempty) (text_ne_empty hp nofun)
    | cons x more =>
      obtain ⟨hx, hmore⟩ := List.forall_mem_cons.1 hs
      rw [toList_text_cons hx hmore, toList_text_cons ha hbelow, List.append_assoc] at h
      cases p with
      | nil => exact ⟨[], a, x, more, rfl, rfl, admits_of_text_eq ha hx hrest h⟩
      | cons b p =>
        -- both texts go on with a dot, and there is none before it
        have hdotless {y : Segment} (hy : y.IsPlain) : ∀ c ∈ y.text.toList, c ≠ '.' :=
          fun c hc heq => Segment.dot_not_mem_text hy (heq ▸ hc)
        have hmark : ∀ c ∈ (continuation (b :: p) ++ rest).head?, ¬ c ≠ '.' := by
          rintro c ⟨⟩
          exact not_not_intro rfl
        have hmark' : ∀ c ∈ (continuation more).head?, ¬ c ≠ '.' := fun c hc =>
          not_not_intro (dot_of_mem_continuation hc)
        obtain ⟨htext, htail⟩ := eq_of_append_eq (hdotless hx) (hdotless ha) hmark' hmark h
        obtain rfl : x = a := Segment.text_injective hx ha (String.toList_injective htext)
        cases more with
        | nil => cases htail
        | cons y more =>
          have hnext : (text (y :: more)).toList = (text (b :: p)).toList ++ rest :=
            (List.cons.inj htail).2
          obtain ⟨q, last, z, tail, hp', hs', hadmits⟩ := ih hmore hbelow nofun hnext
          exact ⟨x :: q, last, z, tail, congrArg (x :: ·) hp', congrArg (x :: ·) hs', hadmits⟩

theorem exists_text_of_segments {q more : Locator} {last x : Segment} (hx : x.IsPlain)
    (hmore : ∀ y ∈ more, y.IsPlain) (h : last.Admits x) :
    ∃ rest, (q ++ x :: more).text.toList = (q ++ [last]).text.toList ++ rest ∧ AtBoundary rest := by
  obtain ⟨rest, heq, hrest⟩ := exists_of_admits h more.atBoundary_continuation
  refine ⟨rest, ?_, hrest⟩
  have hne : (q ++ [x]).text ≠ "" := by
    rw [text_snoc]
    intro hempty
    exact Segment.text_ne_empty hx (String.append_eq_empty_iff.1 hempty).2
  have happend : q ++ x :: more = q ++ [x] ++ more := by rw [List.append_assoc]; rfl
  rw [happend, toList_text_append hne hmore, text_snoc, text_snoc, String.toList_append,
    String.toList_append, List.append_assoc, List.append_assoc, heq]

end Locator

namespace Findings

theorem eq_of_isUnder_item {path name : String} {q : Locator} {i j : Nat}
    (hi : isUnder path (q ++ [Segment.item name i]).text = true)
    (hj : isUnder path (q ++ [Segment.item name j]).text = true) : i = j := by
  have hne (n : Nat) : (q ++ [Segment.item name n]).text ≠ "" := by
    rw [Locator.text_snoc]
    intro hempty
    have htext := congrArg String.toList (String.append_eq_empty_iff.1 hempty).2
    rw [Segment.toList_text_item] at htext
    cases (List.append_eq_nil_iff.1 htext).2
  obtain ⟨w, hw, -⟩ := (isUnder_iff (hne i)).1 hi
  obtain ⟨z, hz, -⟩ := (isUnder_iff (hne j)).1 hj
  rw [hw, Locator.text_snoc, Locator.text_snoc] at hz
  simp only [String.toList_append, Segment.toList_text_item, List.append_assoc,
    List.cons_append, List.nil_append] at hz
  have hbrackets := List.append_cancel_left (List.append_cancel_left hz)
  exact Segment.eq_of_digits_append_eq (List.cons.inj hbrackets).2

/-- The filter by the path of a locator reads segments. Different locators have different texts. A
finding at a locator is kept if the path is empty, or if the locator takes over the segments of the
path up to the last one, which has to admit the segment in its place. Whatever the paths of the
findings are, none of them is kept for two positions of one list. -/
theorem under_reads_segments (l : Findings) :
    (∀ s p : Locator, (∀ x ∈ s, x.IsPlain) → (∀ x ∈ p, x.IsPlain) →
      (s.text = p.text ↔ s = p) ∧
      ∀ f : Finding, f.path = s.text → (f ∈ l.under p.text ↔ f ∈ l ∧
        (p = [] ∨
          ∃ q last x more, p = q ++ [last] ∧ s = q ++ x :: more ∧ last.Admits x))) ∧
    ∀ (q : Locator) (name : String) (i j : Nat), i ≠ j →
      ∀ f ∈ l.under (q ++ [Segment.item name i]).text,
        f ∉ l.under (q ++ [Segment.item name j]).text := by
  constructor
  · intro s p hs hp
    refine ⟨⟨Locator.text_injective hs hp, congrArg Locator.text⟩, ?_⟩
    intro f hf
    rw [under, List.mem_filter, hf]
    refine and_congr_right fun _ => ?_
    by_cases hne : p = []
    · subst hne
      exact iff_of_true rfl (.inl rfl)
    rw [isUnder_iff (Locator.text_ne_empty hp hne), or_iff_right hne]
    constructor
    · rintro ⟨rest, heq, hrest⟩
      exact Locator.exists_segments_of_text hs hp hne hrest heq
    · rintro ⟨q, last, x, more, rfl, rfl, hadmits⟩
      have hx : x.IsPlain := hs x (List.mem_append_right q (.head _))
      have hmore : ∀ y ∈ more, y.IsPlain := fun y hy => hs y (List.mem_append_right q (.tail _ hy))
      exact Locator.exists_text_of_segments hx hmore hadmits
  · intro q name i j hij f hi hj
    have hunder {path : String} (h : f ∈ l.under path) : isUnder f.path path = true :=
      (List.mem_filter.1 h).2
    exact hij (eq_of_isUnder_item (hunder hi) (hunder hj))

/-- A finding on the entry action of the eleventh state of a region. -/
def lateEntry : Finding where
  kind := .required
  type := .behavior
  field := "Specification"
  message := "Specification is required"
  path := "Regions[0].States[10].Entry"

/-- It is kept for the list of states and for its place in the list, and not for the second one. -/
theorem lateEntry_under :
    (∀ x ∈ [Segment.item "Regions" 0, .item "States" 10, .field "Entry"], x.IsPlain) ∧
    (∀ x ∈ [Segment.item "Regions" 0, .field "States"], x.IsPlain) ∧
    (∀ x ∈ [Segment.item "Regions" 0, .item "States" 10], x.IsPlain) ∧
    lateEntry ∈ under [lateEntry] "Regions[0].States" ∧
    lateEntry ∈ under [lateEntry] "Regions[0].States[10]" ∧
    lateEntry ∉ under [lateEntry] "Regions[0].States[1]" := by
  have hplace : ∀ x ∈ [Segment.item "Regions" 0, .item "States" 10, .field "Entry"], x.IsPlain := by
    decide
  have hlist : ∀ x ∈ [Segment.item "Regions" 0, .field "States"], x.IsPlain := by decide
  have hitem : ∀ x ∈ [Segment.item "Regions" 0, .item "States" 10], x.IsPlain := by decide
  have hpath : lateEntry.path =
      Locator.text [.item "Regions" 0, .item "States" 10, .field "Entry"] := by decide
  obtain ⟨hsegments, hpositions⟩ := under_reads_segments [lateEntry]
  have hkept : lateEntry ∈ under [lateEntry] "Regions[0].States[10]" :=
    ((hsegments _ _ hplace hitem).2 lateEntry hpath).2
      ⟨.head _, .inr ⟨[.item "Regions" 0], .item "States" 10, .item "States" 10, [.field "Entry"],
        rfl, rfl, rfl, fun _ => id⟩⟩
  refine ⟨hplace, hlist, hitem, ?_, hkept, ?_⟩
  · exact ((hsegments _ _ hplace hlist).2 lateEntry hpath).2
      ⟨.head _, .inr ⟨[.item "Regions" 0], .field "States", .item "States" 10, [.field "Entry"],
        rfl, rfl, rfl, nofun⟩⟩
  · exact hpositions [.item "Regions" 0] "States" 10 1 (by decide) lateEntry hkept

end Findings

end Statechart
