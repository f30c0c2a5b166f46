import Statechart.Proofs.Agreement.Own

/-! Ends of transitions that lead nowhere. When the walk is done, all members of a region that it
entered are recorded, so a transition refers to an unknown ID only where its end is no member of its
region; and that the rules report. -/

namespace Statechart

theorem subset_flatMap_zipIdx {α β : Type} {items : List α} {f : α × ℕ → List β} {i : ℕ}
    (hi : i < items.length) : f (items[i], i) ⊆ items.zipIdx.flatMap f := by
  intro b hb
  exact List.mem_flatMap.2
    ⟨_, List.mk_mem_zipIdx_iff_getElem?.2 (List.getElem?_eq_getElem hi), hb⟩

theorem EntityType.holder {a b : EntityType} (h : a.canContain b = true)
    (hb : b = .region ∨ b = .state) : a = .stateMachine ∨ a = .region ∨ a = .state := by
  rcases hb with rfl | rfl <;> cases a <;> simp [canContain] at h ⊢

/-- The rules for an element go on to its regions and states. -/
theorem Element.exists_breaches_subset {e : Element} {p : Part} (hp : p ∈ e.parts)
    (htype : p.element.type = .region ∨ p.element.type = .state) (c : Context) :
    ∃ c' : Context, c'.place = c.place ++ [p.step] ∧ p.element.breaches c' ⊆ e.breaches c := by
  cases e with
  | stateMachine m =>
    rcases mem_parts_stateMachine.1 hp with hp | hp <;> obtain ⟨i, hi, rfl⟩ := Part.mem_ofList.1 hp
    · refine ⟨(c.enterMachine m).item "Regions" i, rfl, ?_⟩
      have hlist : m.regions[i].breaches ((c.enterMachine m).item "Regions" i) ⊆
          Region.listBreaches (c.enterMachine m) m.regions 0 := by
        rw [Region.listBreaches_eq_flatMap]
        exact subset_flatMap_zipIdx (f := fun r : Region × ℕ =>
          r.1.breaches ((c.enterMachine m).item "Regions" r.2)) hi
      exact fun b hb => List.mem_append_right _ (hlist hb)
    · rcases htype with h | h <;> cases h
  | region r =>
    rcases mem_parts_region.1 hp with hp | hp | hp <;> obtain ⟨i, hi, rfl⟩ := Part.mem_ofList.1 hp
    · refine ⟨(c.enterRegion r).item "States" i, rfl, ?_⟩
      have hlist : r.states[i].breaches ((c.enterRegion r).item "States" i) ⊆
          Region.stateBreaches (c.enterRegion r) r r.states 0 := by
        rw [Region.stateBreaches_eq_flatMap]
        refine fun b hb => subset_flatMap_zipIdx (f := fun s : State × ℕ =>
          r.listingBreaches (c.enterRegion r) s.1 ++
            s.1.breaches ((c.enterRegion r).item "States" s.2)) hi ?_
        exact List.mem_append_right _ hb
      intro b hb
      rw [show (region r).breaches c = r.breaches c from rfl, Region.breaches_eq]
      exact List.mem_append_left _ (List.mem_append_left _ (List.mem_append_right _ (hlist hb)))
    · rcases htype with h | h <;> cases hv : r.vertices[i] <;> rw [hv] at h <;> cases h
    · rcases htype with h | h <;> cases h
  | state s =>
    rcases mem_parts_state.1 hp with hp | hp | ⟨m, -, rfl⟩
    · obtain ⟨i, hi, rfl⟩ := Part.mem_ofList.1 hp
      refine ⟨c.item "Regions" i, rfl, ?_⟩
      have hlist : s.regions[i].breaches (c.item "Regions" i) ⊆
          Region.listBreaches c s.regions 0 := by
        rw [Region.listBreaches_eq_flatMap]
        exact subset_flatMap_zipIdx (f := fun r : Region × ℕ =>
          r.1.breaches (c.item "Regions" r.2)) hi
      intro b hb
      rw [show (state s).breaches c = s.breaches c from rfl, State.breaches_eq]
      exact List.mem_append_left _ (List.mem_append_left _ (List.mem_append_right _ (hlist hb)))
    · obtain ⟨i, hi, rfl⟩ := Part.mem_ofList.1 hp
      rcases htype with h | h <;> cases h
    · rcases htype with h | h <;> cases h
  | connectionPointReference x =>
    rcases mem_parts_connectionPointReference.1 hp with hp | hp <;>
      obtain ⟨i, hi, rfl⟩ := Part.mem_ofList.1 hp <;> rcases htype with h | h <;> cases h
  | vertex v => cases hp
  | pseudostate q => cases hp
  | finalState f => cases hp
  | transition t => cases hp

namespace StateMachine

theorem exists_own_breaches {m : StateMachine} (options : Options) :
    ∀ x ∈ m.tree, x.place.IsOwn → x.type = .stateMachine ∨ x.type = .region ∨ x.type = .state →
      ∃ c : Context, c.place = x.place ∧ x.element.breaches c ⊆ m.breaches { options } := by
  apply Encounter.tree_induction
  · exact fun _ _ => ⟨{ options }, rfl, List.Subset.refl _⟩
  · intro x _ ih p hp hown htype
    obtain ⟨hx, hmachine⟩ := (Encounter.isOwn_part hp).1 hown
    have hpart : p.element.type = .region ∨ p.element.type = .state :=
      htype.resolve_left hmachine
    have hallows := Element.allows_of_mem_parts hp
    rw [Element.relation_eq_containment hp hmachine] at hallows
    obtain ⟨c, hplace, hsubset⟩ := ih hx (EntityType.holder hallows hpart)
    obtain ⟨c', hplace', hsubset'⟩ := Element.exists_breaches_subset hp hpart c
    refine ⟨c', ?_, fun b hb => hsubset (hsubset' hb)⟩
    rw [hplace', hplace]
    rfl

end StateMachine

theorem Region.exists_edge_breaches_subset {r : Region} {i : ℕ} {t : Transition}
    (ht : r.transitions[i]? = some t) (c : Context) :
    ∃ c' : Context, c'.place = c.place ++ [.item "Transitions" i] ∧
      t.breaches c' ++ t.scopeBreaches c' r ⊆ r.breaches c := by
  obtain ⟨hi, rfl⟩ := List.getElem?_eq_some_iff.1 ht
  refine ⟨(c.enterRegion r).item "Transitions" i, rfl, fun b hb => ?_⟩
  have hlist : b ∈ r.transitionBreaches (c.enterRegion r) :=
    subset_flatMap_zipIdx (f := fun t : Transition × ℕ =>
      t.1.breaches ((c.enterRegion r).item "Transitions" t.2) ++
        t.1.scopeBreaches ((c.enterRegion r).item "Transitions" t.2) r) hi hb
  rw [breaches_eq]
  exact List.mem_append_left _ (List.mem_append_right _ hlist)

theorem Region.endBreach_mem {r : Region} {c : Context} {p : Part}
    (hp : p ∈ Part.ofList .member "Transitions" Element.transition r.transitions) {t : Transition}
    (ht : p.element = .transition t) {side : TransitionEnd} {v : Vertex}
    (hv : t.atEnd side = some v) (hid : Text.isBlank v.id = false)
    (hmember : r.hasMember v.id = false) :
    ⟨.transition, c.place ++ [p.step], .endOutsideRegion side v.id r.id⟩ ∈ r.breaches c := by
  obtain ⟨i, hi, rfl⟩ := Part.mem_ofList.1 hp
  obtain rfl : r.transitions[i] = t := by simpa using ht
  obtain ⟨c', hc', hsubset⟩ := exists_edge_breaches_subset (List.getElem?_eq_getElem hi) c
  have hend : ⟨.transition, c'.place, .endOutsideRegion side v.id r.id⟩ ∈
      r.transitions[i].endBreaches c' r side := by
    rw [Transition.endBreaches, hv]
    simp [Context.breachIf, hid, hmember]
  have hscope : ⟨.transition, c'.place, .endOutsideRegion side v.id r.id⟩ ∈
      r.transitions[i].scopeBreaches c' r :=
    List.mem_append_left _ (List.mem_flatMap.2 ⟨side, by cases side <;> decide, hend⟩)
  have hbreach := hsubset (List.mem_append_right _ hscope)
  rw [hc'] at hbreach
  exact hbreach

namespace Walk

variable {m : StateMachine} {w : Walk}

theorem Reachable.entry_of_hasMember {e : Element} {place : Locator} (h : Reachable e place w)
    (hdone : w.agenda = []) {z : Encounter} (hz : z ∈ w.met) (hentered : w.survey.Entered z)
    {r : Region} (hr : z.element = .region r) {id : String} (hid : Text.isBlank id = false)
    (hmember : r.hasMember id = true) : (w.survey.entry? id).isSome := by
  obtain ⟨q, hq, rfl, -⟩ := Region.exists_part_of_hasMember hmember
  have hmet := h.part_met hdone hz hentered (hr ▸ hq)
  obtain ⟨y, hy, hyid, -⟩ := h.accounted hmet hid
  exact Survey.entry?_isSome.2 ⟨y, hy, hyid⟩

/-- A transition that refers to an unknown ID has an end that is no member of its region. -/
theorem Reachable.unknown_end (h : Reachable (.stateMachine m) [] w) (hdone : w.agenda = [])
    {ref : Reference} (href : ref ∈ w.survey.references) (htype : ref.type = .transition)
    {id : String} (htarget : ref.target = some id) (hnone : w.survey.entry? id = none) :
    ∃ z ∈ w.met, ∃ r, z.element = .region r ∧
      ∃ p ∈ Part.ofList .member "Transitions" Element.transition r.transitions,
        ref.place = z.place ++ [p.step] ∧ ∃ t side v, p.element = .transition t ∧
          t.atEnd side = some v ∧ v.id = id ∧ Text.isBlank id = false ∧
          r.hasMember id = false ∧ ref.field = side.field := by
  obtain ⟨x, hx, hown | ⟨p, hp, rfl⟩⟩ := h.references ref href
  · obtain ⟨hxtype, hplace⟩ := Encounter.located_of_mem_ownReferences hown
    rw [htype] at hxtype
    rcases h.ready.2 x hx with rfl | ⟨z, hz, p, hp, rfl, hentered, -⟩
    · cases hxtype
    obtain ⟨r, hr, hlist⟩ := Element.region_of_transition hp hxtype.symm
    obtain ⟨t, -, ht⟩ := Part.exists_of_mem_ofList hlist
    obtain ⟨side, hside⟩ : ∃ side, ref ∈ (z.part p).endReferences t side := by
      rw [Encounter.ownReferences, Encounter.element_part, ht] at hown
      rcases List.mem_append.1 hown with hown | hown
      · exact ⟨_, hown⟩
      · exact ⟨_, hown⟩
    rcases Encounter.mem_endReferences.1 hside with ⟨-, rfl⟩ | ⟨v, hv, hid, rfl⟩
    · cases htarget
    obtain rfl : v.id = id := by simpa using htarget
    refine ⟨z, hz, r, hr, p, hlist, hplace, t, side, v, ht, hv, rfl, hid, ?_, rfl⟩
    -- a member would have been recorded
    rw [← Bool.not_eq_true]
    intro hmember
    have hentry := h.entry_of_hasMember hdone hz hentered hr hid hmember
    rw [hnone] at hentry
    cases hentry
  · -- a transition has no parts
    have hxtype : x.element.type = .transition := htype
    cases hxe : x.element <;> rw [hxe] at hxtype hp <;> first | cases hp | cases hxtype

end Walk

namespace StateMachine

/-- An own transition that refers to an unknown ID ends outside its region, and the rules say so. -/
theorem endBreach_of_unknownTarget {m : StateMachine} {options : Options} {d : Located Defect}
    (hd : d ∈ (Element.stateMachine m).integrityDefects options []) (hown : d.place.IsOwn)
    (htype : d.type = .transition) {field id : String}
    (hcause : d.cause = .unknownTarget field id) :
    ∃ side region, side.field = field ∧
      ⟨.transition, d.place, .endOutsideRegion side id region⟩ ∈ m.breaches { options } := by
  obtain ⟨met, hreach⟩ := Walk.survey_reachable (.stateMachine m) []
  have hmem : d ∈ ((Element.stateMachine m).survey []).referenceDefects := by
    rw [Element.mem_integrityDefects_iff_stage, hcause] at hd
    exact hd
  obtain ⟨ref, href, hreftype, hrefplace, ⟨-, h⟩ | ⟨target, htarget, hnone, h⟩⟩ :=
    Survey.mem_referenceDefects hmem
  · cases hcause.symm.trans h
  cases hcause.symm.trans h
  obtain ⟨z, hz, r, hr, p, hp, hplace, t, side, v, ht, hv, rfl, hid, hmember, hfield⟩ :=
    hreach.unknown_end rfl href (hreftype.symm.trans htype) htarget hnone
  rw [← hrefplace] at hplace
  have hzown : z.place.IsOwn := (Locator.isOwn_append.1 (hplace ▸ hown)).1
  obtain ⟨c, hc, hsubset⟩ := exists_own_breaches options z (hreach.met_subset hz) hzown
    (.inr (.inl (by rw [Encounter.type, hr]; rfl)))
  have hbreach := Region.endBreach_mem (c := c) hp ht hv hid hmember
  rw [hc, ← hplace] at hbreach
  rw [hr] at hsubset
  exact ⟨side, r.id, hfield.symm, hsubset hbreach⟩

end StateMachine

end Statechart
