import Statechart.Proofs.Acceptance.Spots
import Statechart.Proofs.Survey.Listing

/-! A machine's own elements: those on the way to which no machine is entered that a state stands
for. A machine cannot hold itself, so an own element is met at its own place only. Where no
duplicate is reported and no vertex lists a state of another region, the walk stops short at an own
element only if that is a vertex or a point; so it comes to all own elements, in the order of the
tree. -/

namespace Statechart

namespace Locator

variable {l l' : Locator} {s : Segment}

/-- Whether a place belongs to the machine at the root. -/
def IsOwn (l : Locator) : Prop := Segment.field "Submachine" ∉ l

instance (l : Locator) : Decidable l.IsOwn := inferInstanceAs (Decidable (_ ∉ l))

theorem isOwn_append : IsOwn (l ++ l') ↔ IsOwn l ∧ IsOwn l' := by
  simp only [IsOwn, List.mem_append, not_or]

theorem isOwn_snoc : IsOwn (l ++ [s]) ↔ IsOwn l ∧ s ≠ .field "Submachine" := by
  simp only [IsOwn, List.mem_append, List.mem_singleton, not_or, ne_eq, eq_comm]

end Locator

namespace Element

theorem step_eq_submachine_iff {e : Element} {p : Part} (h : p ∈ e.parts) :
    p.step = .field "Submachine" ↔ p.element.type = .stateMachine := by
  cases e with
  | stateMachine m =>
    rcases mem_parts_stateMachine.1 h with h | h <;> obtain ⟨i, hi, rfl⟩ := Part.mem_ofList.1 h <;>
      simp [Segment.item, Segment.field, type]
  | region r =>
    rcases mem_parts_region.1 h with h | h | h <;> obtain ⟨i, hi, rfl⟩ := Part.mem_ofList.1 h
    · simp [Segment.item, Segment.field, type]
    · cases r.vertices[i] <;> simp [Segment.item, Segment.field, type, RegionVertex.element]
    · simp [Segment.item, Segment.field, type]
  | state s =>
    rcases mem_parts_state.1 h with h | h | ⟨m, -, rfl⟩
    · obtain ⟨i, hi, rfl⟩ := Part.mem_ofList.1 h
      simp [Segment.item, Segment.field, type]
    · obtain ⟨i, hi, rfl⟩ := Part.mem_ofList.1 h
      simp [Segment.item, Segment.field, type]
    · simp [type]
  | connectionPointReference c =>
    rcases mem_parts_connectionPointReference.1 h with h | h <;>
      obtain ⟨i, hi, rfl⟩ := Part.mem_ofList.1 h <;> simp [Segment.item, Segment.field, type]
  | vertex v => cases h
  | pseudostate q => cases h
  | finalState f => cases h
  | transition t => cases h

end Element

namespace Encounter

variable {m : StateMachine} {x y : Encounter}

theorem isOwn_part {p : Part} (h : p ∈ x.element.parts) :
    (x.part p).place.IsOwn ↔ x.place.IsOwn ∧ p.element.type ≠ .stateMachine := by
  rw [show (x.part p).place = x.place ++ [p.step] from rfl, Locator.isOwn_snoc, ne_eq, ne_eq,
    Element.step_eq_submachine_iff h]

theorem isOwn_of_mem_tree (h : y ∈ x.tree) (hy : y.place.IsOwn) : x.place.IsOwn := by
  obtain ⟨way, -, rfl⟩ := mem_tree.1 h
  rw [place_along] at hy
  exact (Locator.isOwn_append.1 hy).1

theorem filter_own_tree_eq_nil (h : ¬ x.place.IsOwn) : x.tree.filter (·.place.IsOwn) = [] := by
  rw [List.filter_eq_nil_iff]
  intro y hy hown
  exact h (isOwn_of_mem_tree hy (by simpa using hown))

theorem own_origin :
    ∀ x ∈ m.tree, x.place.IsOwn → x.origin = { definition := m.shared, steps := x.place } := by
  refine tree_induction (fun _ => rfl) ?_
  intro x _ ih p hp hown
  obtain ⟨hx, htype⟩ := (isOwn_part hp).1 hown
  rw [origin_part x (Element.definition?_eq_none htype), ih hx]
  rfl

theorem sizeOf_le_of_mem_tree : ∀ y ∈ x.tree, sizeOf y.element ≤ sizeOf x.element := by
  refine tree_induction le_rfl ?_
  intro y _ ih p hp
  exact (Element.sizeOf_of_mem_parts hp).le.trans ih

/-- What is not at its own place belongs to another definition. -/
theorem origin_cases (hm : (Element.stateMachine m).Coherent) :
    ∀ y ∈ m.tree, y.origin = { definition := m.shared, steps := y.place } ∨
      ∃ k, y.origin.definition = some k ∧ m.shared ≠ some k := by
  refine tree_induction (.inl rfl) ?_
  intro y hy ih p hp
  cases hdef : p.element.definition? with
  | none =>
    rw [origin_part y hdef]
    rcases ih with ih | ⟨k, hk, hne⟩
    · left
      rw [ih]
      rfl
    · exact .inr ⟨k, hk, hne⟩
  | some k =>
    refine .inr ⟨k, by simp [part, Origin.ofPart, hdef], ?_⟩
    intro hshared
    -- the part would be the machine that it is a part of
    obtain ⟨way, hway, -⟩ := mem_tree.1 hy
    have heq : Element.stateMachine m = p.element :=
      hm [] _ _ _ k rfl (hway.snoc hp) hshared hdef
    have hlt := Element.sizeOf_of_mem_parts hp
    have hle : sizeOf y.element ≤ sizeOf (Element.stateMachine m) := sizeOf_le_of_mem_tree y hy
    rw [← heq] at hlt
    omega

theorem eq_of_own_origin (hm : (Element.stateMachine m).Coherent) (hx : x ∈ m.tree)
    (hown : x.place.IsOwn) (hy : y ∈ m.tree) (horigin : y.origin = x.origin) : y = x := by
  have hxo := own_origin x hx hown
  rw [hxo] at horigin
  rcases origin_cases hm y hy with hyo | ⟨k, hk, hne⟩
  · rw [hyo] at horigin
    exact eq_of_place_eq hy hx (Origin.mk.inj horigin).2
  · rw [horigin] at hk
    exact absurd hk hne

end Encounter

/-- Whether a plain vertex of a region has the ID of a state of a region. -/
def Encounter.Lists (z z' : Encounter) : Prop :=
  ∃ p ∈ z.element.parts, ∃ q ∈ z'.element.parts, p.element.type = .vertex ∧
    q.element.type = .state ∧ p.element.HasId ∧ p.element.id = q.element.id

instance (z z' : Encounter) : Decidable (z.Lists z') :=
  inferInstanceAs (Decidable (∃ p ∈ z.element.parts, ∃ q ∈ z'.element.parts, _ ∧ _))

/-- The vertices of a region list states of that region only. -/
def StateMachine.KeepsListings (m : StateMachine) : Prop :=
  ∀ z ∈ m.tree, ∀ z' ∈ m.tree, z.type = .region → z'.type = .region → z.Lists z' →
    z.origin = z'.origin

theorem StateMachine.keepsListings_iff {m : StateMachine} :
    m.KeepsListings ↔ m.tree.all (fun z => m.tree.all fun z' =>
      z.type = .region → z'.type = .region → z.Lists z' → z.origin = z'.origin) = true := by
  simp only [KeepsListings, List.all_eq_true, decide_eq_true_iff]

instance (m : StateMachine) : Decidable m.KeepsListings :=
  decidable_of_iff' _ StateMachine.keepsListings_iff

namespace Walk

variable {m : StateMachine} {w : Walk} {x : Encounter} {rest : List Task} {met : List Encounter}
  {s : Survey}

/-- The state of a listing comes first, unless the two are of different regions. -/
theorem Reachable.not_listed_state (h : Reachable (.stateMachine m) [] ⟨.visit x :: rest, met, s⟩)
    (hm : (Element.stateMachine m).Coherent) (hkeeps : m.KeepsListings) (hown : x.place.IsOwn)
    (hid : x.element.HasId) {first : Encounter} (hfirst : first ∈ met) (hsame : first.id = x.id)
    (hvertex : first.type = .vertex) : x.type ≠ .state := by
  intro hstate
  rcases Encounter.eq_or_part_of_mem_tree h.next_mem with rfl | ⟨z, hz, p, hp, rfl⟩
  · cases hstate
  rcases Encounter.eq_or_part_of_mem_tree (h.met_subset hfirst) with rfl | ⟨z', hz', q, hq, rfl⟩
  · cases hvertex
  obtain ⟨r, hr⟩ := Element.eq_region_of_mem_parts hp (.inl hstate)
  obtain ⟨r', hr'⟩ := Element.eq_region_of_mem_parts hq (.inr hvertex)
  by_cases horigin : z'.origin = z.origin
  · obtain rfl := Encounter.eq_of_own_origin hm hz ((Encounter.isOwn_part hp).1 hown).1 hz' horigin
    have horder :=
      Encounter.parts_sublist_tree hz (Element.state_before_vertex hp hq hstate hvertex)
    exact not_sublist_swap (Encounter.nodup_tree _) (h.precedes hfirst) horder
  · have hzt : z.type = .region := by rw [Encounter.type, hr]; rfl
    have hzt' : z'.type = .region := by rw [Encounter.type, hr']; rfl
    have hlists : z'.Lists z :=
      ⟨q, hq, p, hp, hvertex, hstate, (Encounter.hasId_congr hsame).2 hid, hsame⟩
    exact horigin (hkeeps z' hz' z hz hzt' hzt hlists)

/-- Where no duplicate is reported, the walk stops short only at vertices and points. -/
theorem Reachable.type_of_pass (h : Reachable (.stateMachine m) [] ⟨.visit x :: rest, met, s⟩)
    (hm : (Element.stateMachine m).Coherent) (hkeeps : m.KeepsListings)
    (hdistinct : ∀ id, ¬ (s.meet x).Refuses id) (hown : x.place.IsOwn)
    (hpass : s.enters x = false) :
    x.type = .vertex ∨ x.type = .pseudostate := by
  have hnot : ¬ (x.element.HasId → s.entry? x.id = none) := by
    rw [← Survey.enters_iff, hpass]
    exact Bool.false_ne_true
  obtain ⟨hid, hsome⟩ := Classical.not_imp.1 hnot
  obtain ⟨first, hfirst⟩ := Option.ne_none_iff_exists'.1 hsome
  obtain ⟨hentry, hfid⟩ := Survey.entry?_eq_some hfirst
  have hmet : first ∈ met := h.entries_subset hentry
  have hmeet := Survey.meet_of_entry hid hfirst
  rcases s.repeated_cases first x with ⟨hsame, -⟩ | ⟨hlisting, -⟩ | ⟨v, hv, -⟩ | ⟨-, heq⟩
  · rcases hsame with horigin | hpoint
    · have heq := Encounter.eq_of_own_origin hm h.next_mem hown (h.met_subset hmet) horigin
      exact absurd (heq ▸ hmet) h.not_met
    · right
      unfold Encounter.isSamePoint at hpoint
      split at hpoint
      · next p q _ hq =>
        rw [Encounter.type, hq]
        rfl
      · cases hpoint
  · simp only [Encounter.isListing, Bool.and_eq_true] at hlisting
    rcases Element.isListingPair_types hlisting.1 with ⟨t, -, hx⟩ | ⟨t, hx, hv⟩
    · left
      rw [Encounter.type, hx]
      rfl
    · have hvertex : first.type = .vertex := by rw [Encounter.type, hv]; rfl
      have hstate : x.type = .state := by rw [Encounter.type, hx]; rfl
      exact absurd hstate (h.not_listed_state hm hkeeps hown hid hmet hfid hvertex)
  · left
    rw [Encounter.type, hv]
    rfl
  · refine absurd ?_ (hdistinct x.id)
    rw [hmeet, heq]
    exact refuses_report _ x _ _ _

/-- The walk leaves no own element out. -/
theorem Reachable.own_faithful (h : Reachable (.stateMachine m) [] w)
    (hm : (Element.stateMachine m).Coherent) (hkeeps : m.KeepsListings)
    (hdistinct : ∀ id, ¬ w.survey.Refuses id) :
    (w.met ++ w.agenda.flatMap Task.tree).filter (·.place.IsOwn) =
      m.tree.filter (·.place.IsOwn) := by
  induction h with
  | refl => simp [start, Task.tree, StateMachine.tree]
  | tail hreach hstep ih =>
    have hbefore := ih fun id hid => hdistinct id (hstep.grows.refuses hid)
    rw [← hbefore]
    cases hstep with
    | @pass x rest met s hpass =>
      have htree : x.tree.filter (·.place.IsOwn) = [x].filter (·.place.IsOwn) := by
        by_cases hown : x.place.IsOwn
        · have htype := Reachable.type_of_pass hreach hm hkeeps hdistinct hown hpass
          rw [Encounter.tree_of_leaf htype]
        · rw [Encounter.filter_own_tree_eq_nil hown]
          simp [hown]
      rw [List.flatMap_cons, Task.tree, List.append_assoc, List.filter_append, List.filter_append,
        List.filter_append, List.filter_append, htree]
    | @enter x rest met s henter =>
      rw [List.flatMap_cons, Task.tree, Encounter.tree_eq, List.flatMap_append,
        Encounter.flatMap_tasks]
      simp
    | follow => simp [Task.tree]
    | settle => simp [Task.tree]

end Walk

end Statechart
