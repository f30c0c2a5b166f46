import Mathlib.Data.List.Find
import Statechart.Proofs.Renaming.Rules
import Statechart.Proofs.Reorder.Distinct

/-! The rules in any order. Whether the rules for a list find something does not depend on where its
members stand, so each of them comes down to a statement about all members. The rules for a region
look members up by their IDs, and find the first one; where IDs are distinct it is the only one. So
a machine with distinct IDs that breaks no rule breaks none in another order. -/

namespace Statechart

open Context (breachIf_eq_nil require_eq_nil)

/-! ### Rules without places -/

theorem Element.breaches_eq_nil_congr {c c' : Context} (h : c.Alike c') (e : Element) :
    e.breaches c' = [] ↔ e.breaches c = [] := by
  have hat {d : Context} (hd : c.Alike d) :
      e.breaches d = (e.breaches { c with place := [] }).map (Located.recast d.place fun b => b) :=
    (Entity.element e).breaches_at hd
  rw [hat h, hat ⟨rfl, rfl, rfl⟩, List.map_eq_nil_iff, List.map_eq_nil_iff]

theorem flatMap_zipIdx_eq_nil_iff {α β : Type} {l : List α} {F : α × ℕ → List β} {P : α → Prop}
    (h : ∀ x i, F (x, i) = [] ↔ P x) : l.zipIdx.flatMap F = [] ↔ ∀ x ∈ l, P x := by
  constructor
  · intro hnil x hx
    obtain ⟨i, hi⟩ := exists_of_flatMap_zipIdx hnil hx
    exact (h x i).1 hi
  · intro hall
    apply List.flatMap_eq_nil_iff.2
    rintro ⟨x, i⟩ hx
    exact (h x i).2 (hall x (List.fst_mem_of_mem_zipIdx hx))

namespace Transition

theorem scopeBreaches_eq_nil_iff {c : Context} {r : Region} {t : Transition} :
    t.scopeBreaches c r = [] ↔
      (∀ side v, t.atEnd side = some v → Text.isBlank v.id = false → r.hasMember v.id = true) ∧
      ∀ v, t.source = some v → isFinal r v = false ∧
        (t.kind = .local → (r.state? v.id).any (!·.isComposite) = false) := by
  rw [scopeBreaches, List.append_eq_nil_iff, List.flatMap_eq_nil_iff]
  apply and_congr
  · have hall (side : TransitionEnd) : side ∈ TransitionEnd.all := by cases side <;> decide
    refine forall_congr' fun side => ?_
    rw [endBreaches]
    cases t.atEnd side with
    | none => simp
    | some v => simp [hall, breachIf_eq_nil]
  · rw [sourceBreaches]
    cases t.source with
    | none => simp
    | some v => simp [breachIf_eq_nil]

end Transition

namespace Region

variable {c : Context} {r : Region}

theorem vertexBreaches_eq_nil_iff :
    r.vertexBreaches c = [] ↔ ∀ v ∈ r.vertices, v.element.breaches c = [] := by
  apply flatMap_zipIdx_eq_nil_iff
  intro v i
  rw [← Element.breaches_eq_nil_congr (c.alike_item "Vertices" i)]
  cases v <;> rfl

theorem transitionBreaches_eq_nil_iff :
    r.transitionBreaches c = [] ↔ ∀ t ∈ r.transitions,
      (Element.transition t).breaches c = [] ∧ t.scopeBreaches c r = [] := by
  apply flatMap_zipIdx_eq_nil_iff
  intro t i
  rw [List.append_eq_nil_iff, Transition.scopeBreaches_eq_nil_iff (c := c),
    ← Transition.scopeBreaches_eq_nil_iff (c := c.item "Transitions" i),
    ← Element.breaches_eq_nil_congr (c.alike_item "Transitions" i)]
  rfl

theorem stateBreaches_eq_nil_iff :
    r.stateBreaches c r.states 0 = [] ↔ ∀ s ∈ r.states,
      r.listingBreaches c s = [] ∧ (Element.state s).breaches c = [] := by
  rw [stateBreaches_eq_flatMap]
  apply flatMap_zipIdx_eq_nil_iff
  intro s i
  rw [List.append_eq_nil_iff,
    ← Element.breaches_eq_nil_congr (c.alike_item "States" i)]
  rfl

theorem listBreaches_eq_nil_iff {l : List Region} :
    listBreaches c l 0 = [] ↔ ∀ r ∈ l, (Element.region r).breaches c = [] := by
  rw [listBreaches_eq_flatMap]
  apply flatMap_zipIdx_eq_nil_iff
  intro r i
  rw [← Element.breaches_eq_nil_congr (c.alike_item "Regions" i)]
  rfl

theorem listingBreaches_eq_nil_iff {s : State} :
    r.listingBreaches c s = [] ↔
      (Text.isBlank s.id = false → ∃ v ∈ r.vertices, v.id = s.id) := by
  rw [listingBreaches, breachIf_eq_nil]
  simp [vertex?, List.find?_eq_none]

theorem multiplicityBreaches_eq_nil_iff :
    r.multiplicityBreaches c = [] ↔
      (r.pseudostateIndices .initial).length ≤ 1 ∧ (c.options.bestPractices = true →
        ∀ kind ∈ [PseudostateKind.deepHistory, .terminate],
          (r.pseudostateIndices kind).length ≤ 1) := by
  unfold multiplicityBreaches
  rw [List.append_eq_nil_iff, breachIf_eq_nil, not_lt]
  apply and_congr_right
  intro _
  split
  · next h => simp [breachIf_eq_nil, h]
  · next h => simp [h]

theorem initialBreaches_eq_nil_iff :
    r.initialBreaches c = [] ↔ ∀ id ∈ r.initialIds, Text.isBlank id = false →
      r.transitions.countP (·.targetId? = some id) = 0 ∧
        r.transitions.countP (·.sourceId? = some id) ≤ 1 := by
  unfold initialBreaches
  rw [List.flatMap_eq_nil_iff]
  refine forall₂_congr fun id _ => ?_
  simp only [← List.countP_eq_length_filter]
  cases Text.isBlank id with
  | true => simp
  | false =>
    simp only [Bool.false_eq_true, if_false, List.append_eq_nil_iff, breachIf_eq_nil, not_lt,
      Nat.le_zero, true_implies]

/-! ### Regions with the same members -/

/-- The regions have the same members, as far as their rules look at these. -/
structure Resembles (r r' : Region) : Prop where
  id : r'.id = r.id
  vertices : r.vertices.Perm r'.vertices
  transitions : r.transitions.Perm r'.transitions
  states : (r.states.map fun s => (s.id, s.isComposite)).Perm
    (r'.states.map fun s => (s.id, s.isComposite))

namespace Resembles

variable {r' : Region}

theorem hasMember_eq (h : r.Resembles r') (id : String) : r'.hasMember id = r.hasMember id := by
  have hstates : (r.states.map (·.id)).Perm (r'.states.map (·.id)) := by
    have hids := h.states.map Prod.fst
    rwa [List.map_map, List.map_map] at hids
  have hmember (r : Region) : r.hasMember id = true ↔
      id ∈ r.vertices.map (·.id) ∨ id ∈ r.states.map (·.id) := by
    simp [hasMember, vertex?, state?]
  rw [Bool.eq_iff_iff, hmember, hmember, (h.vertices.map _).mem_iff, hstates.mem_iff]

theorem vertex?_eq (h : r.Resembles r') (hids : r.HasDistinctMembers) (id : String) :
    r'.vertex? id = r.vertex? id := by
  refine (List.find?_eq_find?_of_perm h.vertices ?_).symm
  rintro v ⟨hv, hvid⟩ w ⟨hw, hwid⟩
  exact List.inj_on_of_nodup_map hids.vertices hv hw
    ((of_decide_eq_true hvid).trans (of_decide_eq_true hwid).symm)

/-- The states found under an ID are equally composite. -/
theorem isComposite_state? (h : r.Resembles r') (hids : r.HasDistinctMembers) (id : String) :
    (r'.state? id).map (·.isComposite) = (r.state? id).map (·.isComposite) := by
  have hfind (r : Region) : (r.state? id).map (·.isComposite) =
      ((r.states.map fun s => (s.id, s.isComposite)).find? (·.1 = id)).map Prod.snd := by
    rw [List.find?_map, Option.map_map]
    rfl
  have hfirst : (r.states.map fun s => (s.id, s.isComposite)).map Prod.fst =
      r.states.map (·.id) := by
    rw [List.map_map]
    rfl
  rw [hfind, hfind, List.find?_eq_find?_of_perm h.states]
  rintro x ⟨hx, hxid⟩ y ⟨hy, hyid⟩
  exact List.inj_on_of_nodup_map (hfirst ▸ hids.states) hx hy
    ((of_decide_eq_true hxid).trans (of_decide_eq_true hyid).symm)

theorem scopeBreaches_eq_nil (h : r.Resembles r') (hids : r.HasDistinctMembers) {c' : Context}
    {t : Transition} (ht : t.scopeBreaches c r = []) : t.scopeBreaches c' r' = [] := by
  obtain ⟨hends, hsource⟩ := Transition.scopeBreaches_eq_nil_iff.1 ht
  refine Transition.scopeBreaches_eq_nil_iff.2 ⟨?_, ?_⟩
  · intro side v hv hid
    rw [h.hasMember_eq]
    exact hends side v hv hid
  · intro v hv
    obtain ⟨hfinal, hlocal⟩ := hsource v hv
    refine ⟨?_, ?_⟩
    · rw [Transition.isFinal, h.vertex?_eq hids]
      exact hfinal
    · intro hkind
      have hcomposite := hlocal hkind
      have hany (o : Option State) : o.any (!·.isComposite) = (o.map (·.isComposite)).any (!·) := by
        rw [Option.any_map]
      rw [hany] at hcomposite ⊢
      rwa [h.isComposite_state? hids]

theorem listingBreaches_eq_nil (h : r.Resembles r') {c' : Context} {s : State}
    (hs : (s.id, s.isComposite) ∈ r.states.map fun s => (s.id, s.isComposite))
    (hlisting : ∀ s ∈ r.states, r.listingBreaches c s = []) : r'.listingBreaches c' s = [] := by
  obtain ⟨t, ht, heq⟩ := List.mem_map.1 hs
  rw [listingBreaches_eq_nil_iff]
  intro hid
  have hts : t.id = s.id := congrArg Prod.fst heq
  obtain ⟨v, hv, hvid⟩ := listingBreaches_eq_nil_iff.1 (hlisting t ht) (hts ▸ hid)
  exact ⟨v, h.vertices.subset hv, hvid.trans hts⟩

theorem multiplicityBreaches_eq_nil (h : r.Resembles r') {c' : Context}
    (hadvice : c'.options.bestPractices = c.options.bestPractices)
    (hr : r.multiplicityBreaches c = []) : r'.multiplicityBreaches c' = [] := by
  have hlength (kind : PseudostateKind) :
      (r'.pseudostateIndices kind).length = (r.pseudostateIndices kind).length := by
    rw [length_pseudostateIndices, length_pseudostateIndices, h.vertices.countP_eq]
  rw [multiplicityBreaches_eq_nil_iff] at hr ⊢
  simpa only [hlength, hadvice] using hr

theorem initialBreaches_eq_nil (h : r.Resembles r') {c' : Context}
    (hr : r.initialBreaches c = []) : r'.initialBreaches c' = [] := by
  rw [initialBreaches_eq_nil_iff] at hr ⊢
  intro id hid
  rw [← h.transitions.countP_eq, ← h.transitions.countP_eq]
  exact hr id ((h.vertices.filterMap _).mem_iff.2 hid)

/-- A region with distinct members that breaks no rule breaks none with the members in another
order, provided that the states do not. -/
theorem breaches_eq_nil (h : r.Resembles r') (hids : r.HasDistinctMembers)
    (hr : r.breaches c = [])
    (hstates : ∀ s ∈ r'.states, (Element.state s).breaches (c.enterRegion r) = []) :
    r'.breaches c = [] := by
  have halike : (c.enterRegion r).Alike (c.enterRegion r') :=
    ⟨rfl, congrArg some h.id, rfl⟩
  rw [breaches_eq] at hr ⊢
  simp only [List.append_eq_nil_iff, require_eq_nil, vertexBreaches_eq_nil_iff,
    stateBreaches_eq_nil_iff, transitionBreaches_eq_nil_iff] at hr ⊢
  obtain ⟨⟨⟨⟨⟨hid, hvertices⟩, hmultiplicity⟩, hlisting⟩, htransitions⟩, hinitial⟩ := hr
  refine ⟨⟨⟨⟨⟨h.id ▸ hid, ?_⟩, h.multiplicityBreaches_eq_nil rfl hmultiplicity⟩, ?_⟩, ?_⟩,
    h.initialBreaches_eq_nil hinitial⟩
  · intro v hv
    rw [Element.breaches_eq_nil_congr halike]
    exact hvertices v (h.vertices.symm.subset hv)
  · intro s hs
    refine ⟨h.listingBreaches_eq_nil ?_ fun t ht => (hlisting t ht).1, ?_⟩
    · exact h.states.symm.subset (List.mem_map_of_mem hs)
    · rw [Element.breaches_eq_nil_congr halike]
      exact hstates s hs
  · intro t ht
    obtain ⟨hown, hscope⟩ := htransitions t (h.transitions.symm.subset ht)
    rw [Element.breaches_eq_nil_congr halike]
    exact ⟨hown, h.scopeBreaches_eq_nil hids hscope⟩

end Resembles

end Region

/-- The rules for a region are broken by none of its states. -/
theorem Region.states_of_breaches {c : Context} {r : Region} (h : r.breaches c = []) :
    ∀ s ∈ r.states, (Element.state s).breaches (c.enterRegion r) = [] := by
  simp only [breaches_eq, List.append_eq_nil_iff, stateBreaches_eq_nil_iff] at h
  exact fun s hs => (h.1.1.2 s hs).2

/-! ### States and machines -/

namespace State

variable {c : Context} {s : State} {l l' : List Region}

theorem regions_of_breaches (h : s.breaches c = []) :
    ∀ r ∈ s.regions, (Element.region r).breaches c = [] := by
  simp only [breaches_eq, List.append_eq_nil_iff, Region.listBreaches_eq_nil_iff] at h
  exact h.1.1.2

/-- A state asks of its regions how many they are, and that they break no rule. -/
theorem breaches_eq_nil_with (hs : State.breaches c { s with regions := l } = [])
    (hlength : l'.length = l.length) (hregions : ∀ r ∈ l', (Element.region r).breaches c = []) :
    State.breaches c { s with regions := l' } = [] := by
  rw [breaches_eq] at hs ⊢
  simp only [List.append_eq_nil_iff, Region.listBreaches_eq_nil_iff] at hs ⊢
  obtain ⟨⟨⟨⟨⟨⟨⟨hshape, htag⟩, hcomposition⟩, hsubmachine⟩, hactions⟩, -⟩, hreferences⟩,
    hconnections⟩ := hs
  refine ⟨⟨⟨⟨⟨⟨⟨hshape, htag⟩, ?_⟩, ?_⟩, hactions⟩, hregions⟩, hreferences⟩, hconnections⟩
  · simpa only [compositionBreaches, hlength] using hcomposition
  · simpa only [submachineBreaches, standInBreaches, plainBreaches, hlength] using hsubmachine

end State

namespace StateMachine

variable {c : Context} {m : StateMachine} {l l' : List Region} {k k' : List Pseudostate}

theorem regions_of_breaches (h : m.breaches c = []) :
    ∀ r ∈ m.regions, (Element.region r).breaches (c.enterMachine m) = [] := by
  simp only [breaches, List.append_eq_nil_iff, Region.listBreaches_eq_nil_iff] at h
  exact h.2

theorem pointBreaches_eq_nil_iff :
    m.pointBreaches c = [] ↔ ∀ p ∈ m.connectionPoints,
      ¬ (p.kind.isKnown ∧ ¬ p.kind.isConnectionPoint) ∧
        (Element.pseudostate p).breaches c = [] := by
  apply flatMap_zipIdx_eq_nil_iff
  intro p i
  rw [List.append_eq_nil_iff, breachIf_eq_nil,
    ← Element.breaches_eq_nil_congr (c.alike_item "ConnectionPoints" i)]
  rfl

/-- A machine asks of its regions how many they are, and that they break no rule. -/
theorem breaches_eq_nil_with
    (hm : StateMachine.breaches c { m with regions := l, connectionPoints := k } = [])
    (hlength : l'.length = l.length)
    (hregions : ∀ r ∈ l', (Element.region r).breaches
      (c.enterMachine { m with regions := l, connectionPoints := k }) = [])
    (hpoints : k.Perm k') :
    StateMachine.breaches c { m with regions := l', connectionPoints := k' } = [] := by
  have halike : (c.enterMachine { m with regions := l, connectionPoints := k }).Alike
      (c.enterMachine { m with regions := l', connectionPoints := k' }) := ⟨rfl, rfl, rfl⟩
  unfold breaches at hm ⊢
  simp only [List.append_eq_nil_iff, require_eq_nil, breachIf_eq_nil, pointBreaches_eq_nil_iff,
    Region.listBreaches_eq_nil_iff, Element.breaches_eq_nil_congr halike] at hm ⊢
  obtain ⟨⟨⟨⟨hid, hsome⟩, hmethod⟩, hown⟩, -⟩ := hm
  refine ⟨⟨⟨⟨hid, hlength ▸ hsome⟩, ?_⟩, ?_⟩, hregions⟩
  · rintro ⟨hflag, hne⟩
    refine hmethod ⟨hflag, ?_⟩
    intro hnil
    rw [hnil] at hpoints
    exact hne hpoints.nil_eq.symm
  · intro p hp
    exact hown p (hpoints.symm.subset hp)

end StateMachine

end Statechart
