import Mathlib.Algebra.Order.Group.Multiset
import Statechart.Proofs.Integrity.Stage
import Statechart.Proofs.Survey.Listing

/-! The bookkeeping of listings in numbers. For an owner and an ID a survey awaits vertices: one for
each state of the owner with the ID that was met and whose entry among the vertices was not. A
vertex with a shape that is awaited is let pass. Every other element of the owner with the ID is the
first one with it or is reported. -/

namespace Statechart

namespace Element

/-- The listings that an element calls for. -/
def stateShapes : Element → Multiset Vertex
  | state s => {s.toVertex}
  | _ => 0

/-- The listings that an element can be. -/
def plainShapes : Element → Multiset Vertex
  | vertex v => {v}
  | _ => 0

theorem stateShapes_of_type_ne {e : Element} (h : e.type ≠ .state) : e.stateShapes = 0 := by
  cases e <;> first | rfl | exact absurd rfl h

theorem plainShapes_of_type_ne {e : Element} (h : e.type ≠ .vertex) : e.plainShapes = 0 := by
  cases e <;> first | rfl | exact absurd rfl h

/-- Only a listing that is among some shapes can be taken from them. -/
theorem sub_plainShapes_of_not_mem {e : Element} {l : Multiset Vertex}
    (h : ∀ v, e = .vertex v → v ∉ l) : l - e.plainShapes = l := by
  cases e with
  | vertex v => rw [plainShapes, Multiset.sub_singleton, Multiset.erase_of_notMem (h v rfl)]
  | _ => exact tsub_zero l

theorem card_stateShapes (e : Element) :
    e.stateShapes.card = if e.type = .state then 1 else 0 := by
  cases e <;> rfl

end Element

/-- What was met at some places. -/
def Walk.metAt (w : Walk) (places : List Locator) : List Encounter :=
  w.met.filter (·.place ∈ places)

namespace Survey

/-- The shapes of states of the owner with the ID that were refused and whose listing is to come. -/
def refusedShapes (s : Survey) (owner : Option String) (id : String) : Multiset Vertex :=
  s.refused.filterMap fun o => if o.1 = owner ∧ o.2.id = id then some o.2 else none

/-- The shape of the state that has the entry for the ID, if it belongs to the owner and its listing
is to come. -/
def unlistedShapes (s : Survey) (owner : Option String) (id : String) : Multiset Vertex :=
  if id ∈ s.listed then 0
  else match s.entry? id with
    | some first => if first.owner = owner then first.element.stateShapes else 0
    | none => 0

def awaited (s : Survey) (owner : Option String) (id : String) : Multiset Vertex :=
  s.refusedShapes owner id + s.unlistedShapes owner id

/-- The number of duplicates reported at some places. -/
def duplicatesAt (s : Survey) (places : List Locator) : ℕ :=
  s.defects.countP fun d => d.cause.isDuplicate ∧ d.place ∈ places

/-- One if the entry for the ID is at one of the places. -/
def firstAt (s : Survey) (places : List Locator) (id : String) : ℕ :=
  if (s.entry? id).any (·.place ∈ places) then 1 else 0

variable {s : Survey} {x y first : Encounter} {owner : Option String} {id : String}
  {places : List Locator}

theorem mem_refusedShapes {v : Vertex} :
    v ∈ s.refusedShapes owner id ↔ (owner, v) ∈ s.refused ∧ v.id = id := by
  simp only [refusedShapes, Multiset.mem_coe, List.mem_filterMap]
  constructor
  · rintro ⟨⟨o, u⟩, hmem, hif⟩
    split at hif
    · next h =>
      cases hif
      exact ⟨h.1 ▸ hmem, h.2⟩
    · cases hif
  · rintro ⟨hmem, hid⟩
    exact ⟨(owner, v), hmem, by simp [hid]⟩

/-- A vertex let pass for a refused state is awaited no more. -/
theorem refusedShapes_erase {v : Vertex} (hmem : (owner, v) ∈ s.refused) (hid : v.id = id) :
    s.refusedShapes owner id =
      v ::ₘ { s with refused := s.refused.erase (owner, v) }.refusedShapes owner id := by
  have hperm := (List.perm_cons_erase hmem).filterMap
    fun o => if o.1 = owner ∧ o.2.id = id then some o.2 else none
  rw [refusedShapes, refusedShapes, Multiset.coe_eq_coe.2 hperm]
  simp [hid]

theorem refusedShapes_erase_of_ne {v : Vertex} {o : Option String} (hne : ¬ (o = owner ∧ v.id = id))
    (hmem : (o, v) ∈ s.refused) :
    { s with refused := s.refused.erase (o, v) }.refusedShapes owner id =
      s.refusedShapes owner id := by
  have hperm := (List.perm_cons_erase hmem).filterMap
    fun o => if o.1 = owner ∧ o.2.id = id then some o.2 else none
  rw [refusedShapes, refusedShapes, Multiset.coe_eq_coe.2 hperm]
  simp [hne]

theorem refusedShapes_refuse (s : Survey) (hx : x.owner = owner) (hid : x.id = id) :
    (s.refuse x).refusedShapes owner id = s.refusedShapes owner id + x.element.stateShapes := by
  unfold refuse
  split
  · next state hstate =>
    have hsid : state.id = id := (congrArg Element.id hstate).symm.trans hid
    simp [refusedShapes, Element.stateShapes, hstate, hx, hsid, ← Multiset.coe_add]
  · next hstate =>
    have hzero : x.element.stateShapes = 0 := by
      apply Element.stateShapes_of_type_ne
      intro htype
      cases hx : x.element <;> rw [hx] at htype <;>
        first | exact hstate _ hx | cases htype
    rw [hzero, add_zero]

theorem refusedShapes_refuse_of_ne (s : Survey)
    (h : x.owner = owner → x.id = id → x.type ≠ .state) :
    (s.refuse x).refusedShapes owner id = s.refusedShapes owner id := by
  unfold refuse
  split
  · next state hstate =>
    have hne : ¬ (x.owner = owner ∧ state.id = id) := by
      rintro ⟨howner, hid⟩
      refine h howner ((congrArg Element.id hstate).trans hid) ?_
      rw [Encounter.type, hstate]
      rfl
    simp [refusedShapes, hne]
  · rfl

theorem unlistedShapes_congr {s' : Survey} (hlisted : id ∈ s'.listed ↔ id ∈ s.listed)
    (hentry : s'.entry? id = s.entry? id) :
    s'.unlistedShapes owner id = s.unlistedShapes owner id := by
  simp only [unlistedShapes, hlisted, hentry]

theorem unlistedShapes_of_entry (hnew : id ∉ s.listed) (hfirst : s.entry? id = some first)
    (howner : first.owner = owner) : s.unlistedShapes owner id = first.element.stateShapes := by
  simp only [unlistedShapes, hnew, if_false, hfirst, howner, if_true]

theorem unlistedShapes_of_owner_ne (hfirst : s.entry? id = some first)
    (howner : first.owner ≠ owner) : s.unlistedShapes owner id = 0 := by
  simp [unlistedShapes, hfirst, howner]

theorem unlistedShapes_of_none (h : s.entry? id = none) : s.unlistedShapes owner id = 0 := by
  simp [unlistedShapes, h]

theorem entry?_append (s : Survey) (x : Encounter) (id : String) :
    Survey.entry? { s with entries := s.entries ++ [x] } id =
      (s.entry? id).or (if x.id = id then some x else none) := by
  simp only [List.find?_append, List.find?_singleton, decide_eq_true_eq, entry?]

/-- The duplicates reported at the places, and the first encounter with the ID if it is at one. -/
def counted (s : Survey) (places : List Locator) (id : String) : ℕ :=
  s.duplicatesAt places + s.firstAt places id

/-! ### Encounters elsewhere -/

theorem duplicatesAt_report (s : Survey) (x : Encounter) (cause : Defect) :
    (s.report x cause).duplicatesAt places =
      s.duplicatesAt places + if cause.isDuplicate ∧ x.place ∈ places then 1 else 0 := by
  simp [duplicatesAt, report, List.countP_append, List.countP_singleton]

theorem duplicatesAt_refuse : (s.refuse x).duplicatesAt places = s.duplicatesAt places := by
  rw [duplicatesAt, defects_refuse, duplicatesAt]

theorem firstAt_congr {s' : Survey} (h : s'.entry? id = s.entry? id) :
    s'.firstAt places id = s.firstAt places id := by
  rw [firstAt, h, firstAt]

theorem entry?_congr {s' : Survey} (h : s'.entries = s.entries) : s'.entry? id = s.entry? id := by
  unfold entry?
  rw [h]

/-- An encounter at another place is not counted. -/
theorem counted_meet_of_not_mem (h : x.place ∉ places) :
    (s.meet x).counted places id = s.counted places id := by
  unfold counted
  rcases s.meet_cases x with ⟨-, heq⟩ | ⟨-, hnew, heq⟩ | ⟨first, -, -, heq⟩ <;> rw [heq]
  · have hfirst : (s.report x .noId).firstAt places id = s.firstAt places id :=
      firstAt_congr (entry?_congr rfl)
    rw [hfirst, duplicatesAt_report]
    simp [Defect.isDuplicate]
  · have hfirst :
        { s with entries := s.entries ++ [x] }.firstAt places id = s.firstAt places id := by
      simp only [firstAt, entry?_append]
      cases s.entry? id with
      | some first => rfl
      | none =>
        split <;> simp_all
    rw [hfirst]
    rfl
  · have hentry : Survey.entry? (s.repeated first x) id = s.entry? id :=
      entry?_congr (s.repeated_frame first x).1
    rw [firstAt_congr hentry]
    rcases s.repeated_cases first x with ⟨-, h'⟩ | ⟨-, -, h'⟩ | ⟨v, -, -, h'⟩ | ⟨-, h'⟩ <;> rw [h']
    · rfl
    · rfl
    · rw [duplicatesAt_report, duplicatesAt_refuse]
      simp [h]

/-- What is awaited for an owner and an ID depends on states and vertices of that owner alone. -/
theorem awaited_meet_of_other
    (h : x.owner = owner → x.id = id → x.type ≠ .state ∧ x.type ≠ .vertex) :
    (s.meet x).awaited owner id = s.awaited owner id := by
  unfold awaited
  rcases s.meet_cases x with ⟨-, heq⟩ | ⟨-, hnew, heq⟩ | ⟨first, -, hfirst, heq⟩ <;> rw [heq]
  · rfl
  · have hunlisted : { s with entries := s.entries ++ [x] }.unlistedShapes owner id =
        s.unlistedShapes owner id := by
      simp only [unlistedShapes, entry?_append]
      cases hold : s.entry? id with
      | some first => rfl
      | none =>
        by_cases hid : x.id = id
        · by_cases howner : x.owner = owner
          · have hzero := Element.stateShapes_of_type_ne (h howner hid).1
            simp [hid, howner, hzero]
          · simp [hid, howner]
        · simp [hid]
    rw [hunlisted]
    rfl
  · have hentry : Survey.entry? (s.repeated first x) id = s.entry? id :=
      entry?_congr (s.repeated_frame first x).1
    rcases s.repeated_cases first x with ⟨-, h'⟩ | ⟨hlisting, -, h'⟩ | ⟨v, hv, hmem, h'⟩ | ⟨-, h'⟩
    · rw [h']
    · -- a listing joins two elements of one owner, so neither is of this one
      have hunlisted :
          (s.repeated first x).unlistedShapes owner id = s.unlistedShapes owner id := by
        by_cases hid : x.id = id
        · have howner : first.owner ≠ owner := by
            simp only [Encounter.isListing, Bool.and_eq_true, decide_eq_true_eq] at hlisting
            rw [hlisting.2]
            intro howner
            have hne := h howner hid
            rcases Element.isListingPair_types hlisting.1 with ⟨t, -, hx⟩ | ⟨t, hx, -⟩ <;>
              simp [Encounter.type, hx, Element.type] at hne
          rw [hid] at hfirst
          rw [unlistedShapes_of_owner_ne hfirst howner,
            unlistedShapes_of_owner_ne (hentry.trans hfirst) howner]
        · refine unlistedShapes_congr ?_ hentry
          rw [h']
          simp [Ne.symm hid]
      rw [hunlisted, h']
      rfl
    · have hne : ¬ (x.owner = owner ∧ v.id = id) := by
        rintro ⟨howner, hid⟩
        have hxid : x.id = v.id := congrArg Element.id hv
        have htype := (h howner (hxid.trans hid)).2
        rw [Encounter.type, hv] at htype
        exact htype rfl
      rw [h'] at hentry ⊢
      rw [refusedShapes_erase_of_ne hne hmem]
      exact congrArg _ (unlistedShapes_congr Iff.rfl hentry)
    · have hrefused : (s.repeated first x).refusedShapes owner id = s.refusedShapes owner id := by
        rw [h']
        exact refusedShapes_refuse_of_ne s fun howner hid => (h howner hid).1
      rw [hrefused, unlistedShapes_congr (by rw [h']; simp [report]) hentry]

/-! ### Encounters with members -/

/-- What an encounter of the owner with the ID comes to: it is let pass as a listing that is
awaited, or it is counted and its own listing is awaited from now on. -/
def Counts (s s' : Survey) (x : Encounter) (owner : Option String) (id : String)
    (places : List Locator) : Prop :=
  (∃ v, x.element = .vertex v ∧ s.awaited owner id = v ::ₘ s'.awaited owner id ∧
    s'.counted places id = s.counted places id) ∨
  ((∀ v, x.element = .vertex v → v ∉ s.awaited owner id) ∧
    s'.awaited owner id = s.awaited owner id + x.element.stateShapes ∧
    s'.counted places id = s.counted places id + 1)

theorem counts_of_new (hid : x.element.HasId) (hplace : x.place ∈ places)
    (hnew : s.entry? x.id = none) (hlisted : x.id ∉ s.listed)
    (hrefused : ∀ o ∈ s.refused, o.2.id ≠ x.id) : s.Counts (s.meet x) x x.owner x.id places := by
  have hnone : s.refusedShapes x.owner x.id = 0 := by
    apply Multiset.eq_zero_of_forall_notMem
    intro v hv
    obtain ⟨hmem, hvid⟩ := mem_refusedShapes.1 hv
    exact hrefused _ hmem hvid
  have hbefore : s.awaited x.owner x.id = 0 := by
    rw [awaited, hnone, unlistedShapes_of_none hnew, add_zero]
  have hentry : Survey.entry? (s.meet x) x.id = some x := by
    rw [meet_of_new hid hnew, entry?_append, hnew]
    simp
  right
  rw [hbefore]
  refine ⟨fun v _ => Multiset.notMem_zero v, ?_, ?_⟩
  · have hsame : (s.meet x).refusedShapes x.owner x.id = s.refusedShapes x.owner x.id := by
      rw [meet_of_new hid hnew]
      rfl
    have hlisted' : x.id ∉ (s.meet x).listed := by
      rw [meet_of_new hid hnew]
      exact hlisted
    rw [awaited, hsame, hnone, unlistedShapes_of_entry hlisted' hentry rfl]
  · have hdefects : (s.meet x).duplicatesAt places = s.duplicatesAt places := by
      rw [meet_of_new hid hnew]
      rfl
    simp [counted, hdefects, firstAt, hentry, hnew, hplace]

theorem counts_of_entry (hid : x.element.HasId) (hplace : x.place ∈ places)
    (hfirst : s.entry? x.id = some first) (horigin : first.origin ≠ x.origin)
    (hpoint : ¬ first.isSamePoint x = true)
    (hlisting : first.isListing x = true →
      ∃ t, first.element = .state t ∧ x.element = .vertex t.toVertex) :
    s.Counts (s.meet x) x x.owner x.id places := by
  have htells := s.tells_recurrence first x
  have hentry : Survey.entry? (s.repeated first x) x.id = s.entry? x.id :=
    entry?_congr (s.repeated_frame first x).1
  have hcounted {s' : Survey} (hd : s'.defects = s.defects) (he : s'.entries = s.entries) :
      s'.counted places x.id = s.counted places x.id := by
    rw [counted, firstAt_congr (entry?_congr he), duplicatesAt, hd, counted, duplicatesAt]
  rw [meet_of_entry hid hfirst]
  unfold repeated at hentry ⊢
  cases hr : s.recurrence first x with
  | sameElement =>
    rw [hr] at htells
    exact absurd htells horigin
  | samePoint =>
    rw [hr] at htells
    exact absurd htells hpoint
  | listing =>
    rw [hr] at htells
    obtain ⟨hpair, hnew⟩ := htells
    obtain ⟨t, ht, hv⟩ := hlisting hpair
    have howner : first.owner = x.owner := by
      simp only [Encounter.isListing, Bool.and_eq_true, decide_eq_true_eq] at hpair
      exact hpair.2
    refine .inl ⟨t.toVertex, hv, ?_, hcounted rfl rfl⟩
    have hafter : { s with listed := x.id :: s.listed }.unlistedShapes x.owner x.id = 0 := by
      simp [unlistedShapes]
    rw [awaited, unlistedShapes_of_entry hnew hfirst howner, awaited, hafter, ht, add_zero]
    exact add_comm _ _
  | refusedListing v =>
    rw [hr] at htells
    obtain ⟨hv, hmem, -⟩ := htells
    have hvid : v.id = x.id := (congrArg Element.id hv).symm
    refine .inl ⟨v, hv, ?_, hcounted rfl rfl⟩
    rw [awaited, refusedShapes_erase hmem hvid, Multiset.cons_add]
    rfl
  | duplicate =>
    rw [hr] at htells hentry
    obtain ⟨hvertex, hlisted⟩ := htells
    refine .inr ⟨?_, ?_, ?_⟩
    · intro v hv hmem
      rcases Multiset.mem_add.1 hmem with hmem | hmem
      · exact hvertex v hv (mem_refusedShapes.1 hmem).1
      · unfold unlistedShapes at hmem
        split at hmem
        · exact Multiset.notMem_zero v hmem
        · next hnew =>
          rw [hfirst] at hmem
          simp only at hmem
          split at hmem
          · next howner =>
            refine hnew (hlisted ?_)
            cases ht : first.element <;> rw [ht] at hmem <;> simp [Element.stateShapes] at hmem
            simp [Encounter.isListing, howner, ht, hv, Element.isListingPair, hmem]
          · exact Multiset.notMem_zero v hmem
    · have hrefused : (s.refuse x).refusedShapes x.owner x.id =
          s.refusedShapes x.owner x.id + x.element.stateShapes := refusedShapes_refuse s rfl rfl
      have hunlisted :
          ((s.refuse x).report x (.duplicateId x.id first.type first.place)).unlistedShapes
            x.owner x.id = s.unlistedShapes x.owner x.id :=
        unlistedShapes_congr (by simp [report]) hentry
      rw [awaited, hunlisted, awaited, add_right_comm, ← hrefused]
      rfl
    · rw [counted, firstAt_congr hentry, duplicatesAt_report, duplicatesAt_refuse, counted]
      simp only [Defect.isDuplicate, hplace]
      simp
      omega

end Survey

end Statechart
