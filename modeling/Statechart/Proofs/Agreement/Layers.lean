import Statechart.Proofs.Agreement.Rules

/-! The rules and the integrity check agree on what is missing. The walk reports an element without
an ID when it meets it and notes an empty slot when it settles the element, so what it has reported
and what its agenda has still to settle are together the gaps of what it has met. It meets all own
elements, unless a duplicate is reported or a vertex lists a state of another region; and the gaps
of all own elements are what the rules report. -/

namespace Statechart

/-- Gaps of things at own places are gaps at own places. -/
theorem Gap.filter_own_flatMap {α : Type} {place : α → Locator} {f : α → List Gap}
    (hf : ∀ a, ∀ g ∈ f a, g.place = place a) (l : List α) :
    (l.flatMap f).filter (·.place.IsOwn) = (l.filter fun a => (place a).IsOwn).flatMap f := by
  induction l with
  | nil => rfl
  | cons a l ih =>
    rw [List.flatMap_cons, List.filter_append, ih, List.filter_cons]
    by_cases hown : (place a).IsOwn
    · rw [if_pos (by simpa using hown), List.flatMap_cons, List.filter_eq_self.2]
      intro g hg
      simpa [hf a g hg] using hown
    · rw [if_neg (by simpa using hown), List.filter_eq_nil_iff.2, List.nil_append]
      intro g hg
      simpa [hf a g hg] using hown

theorem Gap.filter_own_filterMap {α : Type} {place : α → Locator} {f : α → Option Gap}
    (hf : ∀ a g, f a = some g → g.place = place a) (l : List α) :
    (l.filterMap f).filter (·.place.IsOwn) = (l.filter fun a => (place a).IsOwn).filterMap f := by
  rw [List.filterMap_eq_flatMap_toList, List.filterMap_eq_flatMap_toList]
  refine filter_own_flatMap ?_ l
  intro a g hg
  exact hf a g (Option.mem_toList.1 hg)

namespace Defects

/-- What a defect says is missing. -/
def gap? (d : Located Defect) : Option Gap :=
  match d.cause with
  | .noId => some ⟨d.type, d.place, .id⟩
  | .unset field => some ⟨d.type, d.place, .ofSlot field⟩
  | _ => none

/-- What defects report as missing. -/
def gaps (l : Defects) : List Gap := l.filterMap gap?

theorem gaps_append {l l' : Defects} : gaps (l ++ l') = gaps l ++ gaps l' := List.filterMap_append

theorem gaps_eq_nil {l : Defects} (hw : ∀ d ∈ l, d.cause.stage ≠ .walk)
    (hr : ∀ d ∈ l, d.cause.stage ≠ .reference) : gaps l = [] := by
  rw [gaps, List.filterMap_eq_nil_iff]
  intro d hd
  have hw := hw d hd
  have hr := hr d hd
  unfold gap?
  cases hcause : d.cause <;> rw [hcause] at hw hr <;>
    first | rfl | exact absurd rfl hw | exact absurd rfl hr

theorem gaps_filter_own (l : Defects) :
    (gaps l).filter (·.place.IsOwn) = gaps (l.filter (·.place.IsOwn)) := by
  refine Gap.filter_own_filterMap ?_ l
  intro d g hg
  unfold gap? at hg
  split at hg <;> cases hg <;> rfl

end Defects

theorem Breaches.gaps_filter_own (l : Breaches) :
    (gaps l).filter (·.place.IsOwn) = gaps (l.filter (·.place.IsOwn)) := by
  refine Gap.filter_own_filterMap ?_ l
  intro b g hg
  unfold gap? at hg
  split at hg
  · split at hg <;> cases hg
    rfl
  · cases hg
    rfl
  · cases hg
    rfl
  · cases hg

namespace Survey

variable {s : Survey} {x : Encounter}

/-- On meeting an element it is reported if it lacks an ID. -/
theorem gaps_meet (s : Survey) (x : Encounter) :
    Defects.gaps (s.meet x).defects = Defects.gaps s.defects ++ x.idGaps := by
  rcases s.meet_cases x with ⟨hid, h⟩ | ⟨hid, -, h⟩ | ⟨first, hid, -, h⟩ <;> rw [h]
  · rw [Encounter.idGaps, if_pos (by simpa [Element.HasId] using hid), report, Defects.gaps_append]
    rfl
  · rw [Encounter.idGaps, if_neg (by simpa [Element.HasId] using hid), List.append_nil]
  · rw [Encounter.idGaps, if_neg (by simpa [Element.HasId] using hid), List.append_nil]
    rcases s.repeated_cases first x with ⟨-, h⟩ | ⟨-, -, h⟩ | ⟨v, -, -, h⟩ | ⟨-, h⟩ <;> rw [h]
    simp only [report, Defects.gaps_append, defects_refuse]
    exact List.append_nil _

theorem gaps_referenceDefects :
    Defects.gaps s.referenceDefects = s.references.filterMap Reference.gap? := by
  rw [Defects.gaps, referenceDefects, List.filterMap_filterMap]
  refine List.filterMap_congr ?_
  intro r _
  unfold Reference.gap?
  cases r.target with
  | none => rfl
  | some id =>
    simp only
    split <;> rfl

end Survey

/-- The empty slots that are noted when the task is done. -/
def Task.slotGaps : Task → List Gap
  | settle x => x.slotGaps
  | _ => []

namespace Encounter

theorem flatMap_tasks_slotGaps (x : Encounter) : x.tasks.flatMap Task.slotGaps = x.slotGaps := by
  simp [tasks, List.flatMap_map, Task.slotGaps]

theorem place_of_mem_idGaps {x : Encounter} {g : Gap} (h : g ∈ x.idGaps) : g.place = x.place := by
  unfold idGaps at h
  split at h
  · rw [List.mem_singleton.1 h]
  · cases h

theorem place_of_mem_slotGaps {x : Encounter} {g : Gap} (h : g ∈ x.slotGaps) :
    g.place = x.place := by
  obtain ⟨r, hr, hg⟩ := List.mem_filterMap.1 h
  rw [← (located_of_mem_ownReferences hr).2]
  unfold Reference.gap? at hg
  split at hg <;> cases hg
  rfl

theorem place_of_mem_ownGaps {x : Encounter} {g : Gap} (h : g ∈ x.ownGaps) : g.place.IsOwn := by
  obtain ⟨y, hy, hg⟩ := List.mem_flatMap.1 h
  have hplace : g.place = y.place :=
    (List.mem_append.1 hg).elim place_of_mem_idGaps place_of_mem_slotGaps
  rw [hplace]
  simpa using (List.mem_filter.1 hy).2

/-- Only transitions have slots for other elements. -/
theorem type_of_mem_ownGaps {x : Encounter} {g : Gap} (h : g ∈ x.ownGaps) {field : String}
    (hkind : g.kind = .field field) : g.type = .transition := by
  obtain ⟨y, -, hg⟩ := List.mem_flatMap.1 h
  rcases List.mem_append.1 hg with hg | hg
  · unfold idGaps at hg
    split at hg
    · rw [List.mem_singleton.1 hg] at hkind
      cases hkind
    · cases hg
  · by_cases hstate : y.type = .state
    · cases hy : y.element <;> rw [type, hy] at hstate <;> cases hstate
      rw [slotGaps_state hy] at hg
      split at hg
      · rw [List.mem_singleton.1 hg] at hkind
        cases hkind
      · cases hg
    · by_cases htransition : y.type = .transition
      · obtain ⟨r, hr, hrg⟩ := List.mem_filterMap.1 hg
        have htype := (located_of_mem_ownReferences hr).1
        unfold Reference.gap? at hrg
        split at hrg <;> cases hrg
        exact htype.trans htransition
      · rw [slotGaps_eq_nil hstate htransition] at hg
        cases hg

end Encounter

namespace Walk

variable {e : Element} {place : Locator} {m : StateMachine} {w : Walk}

theorem Reachable.gaps_defects (h : Reachable e place w) :
    Defects.gaps w.survey.defects = w.met.flatMap Encounter.idGaps := by
  induction h with
  | refl => rfl
  | tail _ hstep ih =>
    cases hstep with
    | pass => rw [Survey.gaps_meet, ih, List.flatMap_append, List.flatMap_singleton]
    | enter => rw [Survey.gaps_meet, ih, List.flatMap_append, List.flatMap_singleton]
    | follow => rw [Survey.defects_link, ih]
    | settle => rw [Survey.defects_settle, ih]

/-- The empty slots noted and those still to note are those of the own elements met. -/
theorem Reachable.own_slotGaps (h : Reachable (.stateMachine m) [] w)
    (hm : (Element.stateMachine m).Coherent) (hkeeps : m.KeepsListings)
    (hdistinct : ∀ id, ¬ w.survey.Refuses id) :
    ((w.survey.references.filterMap Reference.gap? ++ w.agenda.flatMap Task.slotGaps).filter
      (·.place.IsOwn)).Perm ((w.met.filter (·.place.IsOwn)).flatMap Encounter.slotGaps) := by
  rw [← Gap.filter_own_flatMap fun x g => Encounter.place_of_mem_slotGaps]
  induction h with
  | refl => exact .refl _
  | tail hreach hstep ih =>
    have hbefore := ih fun id hid => hdistinct id (hstep.grows.refuses hid)
    cases hstep with
    | @pass x rest met s hpass =>
      have hslots : x.slotGaps.filter (·.place.IsOwn) = [] := by
        rw [List.filter_eq_nil_iff]
        intro g hg hown
        have hx : x.place.IsOwn := by
          simpa [Encounter.place_of_mem_slotGaps hg] using hown
        have htype := Reachable.type_of_pass hreach hm hkeeps hdistinct hx hpass
        rw [Encounter.slotGaps_eq_nil (by rcases htype with h | h <;> rw [h] <;> nofun)
          (by rcases htype with h | h <;> rw [h] <;> nofun)] at hg
        cases hg
      simpa [Task.slotGaps, hslots] using hbefore
    | @enter x rest met s henter =>
      simp only [List.flatMap_append, List.flatMap_cons, Task.slotGaps, List.nil_append,
        Encounter.flatMap_tasks_slotGaps, List.filter_append, List.flatMap_nil, List.append_nil,
        Survey.references_meet] at hbefore ⊢
      -- the slots of the element move from the agenda's front behind the others
      refine ((List.perm_append_comm.append_left _).trans ?_)
      rw [← List.append_assoc]
      exact hbefore.append_right _
    | @follow x p rest met s =>
      have hlink : (s.link x p).references.filterMap Reference.gap? =
          s.references.filterMap Reference.gap? := by
        rw [Survey.references_link, List.filterMap_append]
        split <;> simp [Reference.gap?]
      simpa [Task.slotGaps, hlink] using hbefore
    | @settle x rest met s =>
      rw [Survey.references_settle, List.filterMap_append, List.append_assoc]
      exact hbefore

end Walk

namespace StateMachine

variable {m : StateMachine} {options : Options}

/-- The integrity check reports what is missing on own elements, unless an ID is reused or a vertex
lists a state of another region. -/
theorem gaps_integrityDefects (hm : (Element.stateMachine m).Coherent)
    (hdistinct : ∀ id, ¬ ((Element.stateMachine m).survey []).Refuses id)
    (hkeeps : m.KeepsListings) :
    (Defects.gaps (((Element.stateMachine m).integrityDefects options []).filter
      (·.place.IsOwn))).Perm (Encounter.ofRoot (.stateMachine m) []).ownGaps := by
  obtain ⟨met, hreach⟩ := Walk.survey_reachable (.stateMachine m) []
  have hassociation :
      Defects.gaps ((Element.stateMachine m).survey []).associationDefects = [] := by
    apply Defects.gaps_eq_nil <;> intro d hd <;>
      rw [Survey.stage_of_mem_associationDefects hd] <;> nofun
  have hrelation (r : Relation) : Defects.gaps
      (((Element.stateMachine m).survey []).relationDefects options.maxCycleDepth r) = [] := by
    apply Defects.gaps_eq_nil <;> intro d hd <;>
      rw [Survey.stage_of_mem_relationDefects hd] <;> nofun
  have hids : (Defects.gaps ((Element.stateMachine m).survey []).defects).filter (·.place.IsOwn) =
      (met.filter (·.place.IsOwn)).flatMap Encounter.idGaps := by
    rw [hreach.gaps_defects,
      Gap.filter_own_flatMap fun x g => Encounter.place_of_mem_idGaps]
  have hslots := hreach.own_slotGaps hm hkeeps hdistinct
  have hmet := hreach.own_faithful hm hkeeps hdistinct
  simp only [List.flatMap_nil, List.append_nil] at hslots hmet
  rw [← Defects.gaps_filter_own]
  simp only [Element.integrityDefects, Survey.allDefects, Defects.gaps_append, hassociation,
    hrelation, List.append_nil, List.filter_append, Survey.gaps_referenceDefects, hids]
  refine (hslots.append_left _).trans ((List.flatMap_append_perm _ _ _).trans ?_)
  rw [hmet]
  exact .refl _

/-- The rules report what is missing on own elements. -/
theorem gaps_breaches :
    (Breaches.gaps ((m.breaches { options }).filter (·.place.IsOwn))).Perm
      (Encounter.ofRoot (.stateMachine m) []).ownGaps := by
  have hgaps : (Breaches.gaps (m.breaches { options })).Perm
      (Encounter.ofRoot (.stateMachine m) []).ownGaps :=
    Element.reportsGaps (.stateMachine m) { options } _ ⟨rfl, rfl, List.not_mem_nil⟩
  rw [← Breaches.gaps_filter_own]
  refine (hgaps.filter _).trans ?_
  rw [List.filter_eq_self.2]
  intro g hg
  simpa using Encounter.place_of_mem_ownGaps hg

end StateMachine

end Statechart
