import Statechart.Proofs.Reading.Copy
import Statechart.Proofs.Survey.Arrival
import Statechart.Proofs.Survey.Shared

/-! The walk over a copy. It goes in step with the walk over the original, since a walk goes down
into an element by its ID and the IDs are the same. What differs is the origins: in a copy every
element is a different one. So a walk over a copy sees a duplicate where the original comes to a
shared machine again. -/

namespace Statechart

namespace Encounter

/-- The encounter with the copy at the same place. A copy shares nothing, so its origin is its
place. -/
def copy (x : Encounter) : Encounter :=
  { x with element := x.element.copy, origin := { steps := x.place } }

variable {x y : Encounter}

@[simp] theorem id_copy (x : Encounter) : x.copy.id = x.id := x.element.id_copy

@[simp] theorem type_copy (x : Encounter) : x.copy.type = x.type := x.element.type_copy

@[simp] theorem place_copy (x : Encounter) : x.copy.place = x.place := rfl

@[simp] theorem owner_copy (x : Encounter) : x.copy.owner = x.owner := rfl

theorem hasId_copy : x.copy.element.HasId ↔ x.element.HasId := hasId_congr x.id_copy

@[simp] theorem knownId?_copy (x : Encounter) : x.copy.knownId? = x.knownId? := by
  rw [knownId?, id_copy, knownId?]

theorem origin_copy_eq : x.copy.origin = y.copy.origin ↔ x.place = y.place := by
  simp [copy]

theorem copy_part (x : Encounter) (p : Part) : (x.part p).copy = x.copy.part p.copy := by
  have horigin : x.copy.origin.ofPart p.copy = { steps := x.place ++ [p.step] } := by
    simp [Origin.ofPart, Part.copy, copy]
  rw [part, part, horigin, knownId?_copy]
  rfl

theorem copy_ofRoot (e : Element) : (ofRoot e []).copy = ofRoot e.copy [] := by
  simp [copy, ofRoot, Origin.ofRoot]

theorem isSamePoint_copy (x y : Encounter) : x.copy.isSamePoint y.copy = x.isSamePoint y := by
  unfold isSamePoint copy
  cases x.element <;> cases y.element <;> rfl

theorem isListing_copy (x y : Encounter) : x.copy.isListing y.copy = x.isListing y := by
  have hpair : x.element.copy.isListingPair y.element.copy =
      x.element.isListingPair y.element := by
    cases x.element <;> cases y.element <;>
      simp [Element.copy, Element.isListingPair, State.copy_eq]
  rw [isListing, isListing, ← hpair]
  rfl

theorem endReferences_copy (x : Encounter) (t : Transition) (side : TransitionEnd) :
    x.copy.endReferences t side = x.endReferences t side := by
  rw [endReferences, type_copy, place_copy, endReferences]

end Encounter

/-- The surveys agree but for the elements, which are copies in the second one, and for what is
reported. In a model that has an ID for each machine that it holds several times they also agree in
the bookkeeping of listings. -/
structure Survey.IsCopy (e : Element) (s s' : Survey) : Prop where
  entries : s'.entries = s.entries.map (·.copy)
  references : s'.references = s.references
  containment : s'.containment = s.containment
  standIn : s'.standIn = s.standIn
  association : s'.association = s.association
  bookkeeping : e.Coherent → e.NamesShared → s'.listed = s.listed ∧ s'.refused = s.refused

namespace Survey

variable {e : Element} {s s' : Survey} {x first : Encounter}

theorem containment_meet (s : Survey) (x : Encounter) :
    (s.meet x).containment = s.containment :=
  congrArg Digraph.mk (edges_meet .containment)

theorem standIn_meet (s : Survey) (x : Encounter) : (s.meet x).standIn = s.standIn :=
  congrArg Digraph.mk (edges_meet .submachine)

namespace IsCopy

theorem entry? (h : IsCopy e s s') (id : String) : s'.entry? id = (s.entry? id).map (·.copy) := by
  have hid : (fun x : Encounter => decide (x.id = id)) ∘ Encounter.copy =
      fun x : Encounter => decide (x.id = id) := by
    funext x
    rw [Function.comp_apply, x.id_copy]
  rw [Survey.entry?, h.entries, List.find?_map, hid, Survey.entry?]

theorem entry?_of_new (h : IsCopy e s s') (hnew : s.entry? x.id = none) :
    s'.entry? x.copy.id = none := by
  rw [h.entry?, x.id_copy, hnew]
  rfl

theorem entry?_of_entry (h : IsCopy e s s') (hfirst : s.entry? x.id = some first) :
    s'.entry? x.copy.id = some first.copy := by
  rw [h.entry?, x.id_copy, hfirst]
  rfl

theorem enters (h : IsCopy e s s') (x : Encounter) : s'.enters x.copy = s.enters x := by
  simp [Survey.enters, h.entry?]

end IsCopy

/-- The copies of two elements at different places compare as the elements do, if these are of
different instances. -/
theorem recurrence_copy (hlisted : s'.listed = s.listed) (hrefused : s'.refused = s.refused)
    (horigin : first.origin ≠ x.origin) (hplace : first.place ≠ x.place) :
    s'.recurrence first.copy x.copy = s.recurrence first x := by
  have hrefusal : s'.refusal x.copy = s.refusal x := by
    unfold refusal Encounter.copy
    cases x.element <;> simp [Element.copy, hrefused]
  unfold recurrence
  rw [if_neg horigin, if_neg (Encounter.origin_copy_eq.not.2 hplace), Encounter.isSamePoint_copy,
    Encounter.isListing_copy, Encounter.id_copy, hlisted, hrefusal]

/-- The copy of a machine is a duplicate of whatever is elsewhere. -/
theorem recurrence_copy_of_machine (hmachine : x.type = .stateMachine)
    (hplace : first.place ≠ x.place) : s'.recurrence first.copy x.copy = .duplicate := by
  refine recurrence_eq_duplicate.2 ⟨Encounter.origin_copy_eq.not.2 hplace, ?_, ?_, ?_⟩
  · rw [Encounter.isSamePoint_copy, Bool.eq_false_iff]
    intro hpoint
    have htype := (Encounter.types_of_isSamePoint hpoint).2
    exact absurd (htype.symm.trans hmachine) nofun
  · rw [Encounter.isListing_copy]
    intro hlisting
    rcases Encounter.types_of_isListing hlisting with ⟨-, htype⟩ | ⟨-, htype⟩ <;>
      exact absurd (htype.symm.trans hmachine) nofun
  · intro v hv
    have htype := congrArg Element.type hv
    exact absurd (htype.symm.trans (x.type_copy.trans hmachine)) nofun

theorem refuse_of_type_ne (h : x.type ≠ .state) : s.refuse x = s := by
  unfold refuse
  split
  · next state hstate => exact absurd (congrArg Element.type hstate) h
  · rfl

end Survey

namespace Walk

variable {e : Element} {x first : Encounter} {rest : List Task} {met : List Encounter}
  {s s' : Survey}

/-- At an arrival at a taken ID the copies compare as the elements do, unless these are one shared
machine. -/
theorem Reachable.recurrence_copy (h : Reachable e [] ⟨.visit x :: rest, met, s⟩)
    (he : e.Coherent) (hnames : e.NamesShared) (hcopy : s.IsCopy e s')
    (hfirst : first ∈ s.entries) :
    first.place ≠ x.place ∧
      (first.sharesWith x = false ∧ s'.recurrence first.copy x.copy = s.recurrence first x ∨
        first.sharesWith x = true ∧ s.recurrence first x = .sameElement ∧
          s'.recurrence first.copy x.copy = .duplicate) := by
  have hmet := h.entries_subset hfirst
  have hne : first ≠ x := by
    rintro rfl
    exact h.not_met hmet
  have hplace : first.place ≠ x.place :=
    fun hplace => hne (Encounter.eq_of_place_eq (h.met_subset hmet) h.next_mem hplace)
  have horigin :=
    h.origin_eq_iff_sharesWith he hnames (h.ready.2 _ hmet) (h.ready.1 _ (.head _)) hne
  refine ⟨hplace, ?_⟩
  cases hshares : first.sharesWith x with
  | false =>
    obtain ⟨hlisted, hrefused⟩ := hcopy.bookkeeping he hnames
    rw [hshares] at horigin
    exact .inl ⟨rfl, Survey.recurrence_copy hlisted hrefused (by simpa using horigin) hplace⟩
  | true =>
    obtain ⟨n, -, hn⟩ := Encounter.sharesWith_iff.1 hshares
    have hmachine := Element.type_of_definition? hn
    exact .inr ⟨rfl, if_pos (horigin.2 hshares), Survey.recurrence_copy_of_machine hmachine hplace⟩

end Walk

namespace Survey

variable {e : Element} {s s' : Survey} {x first : Encounter}

theorem refused_refuse_copy (h : s'.refused = s.refused) (x : Encounter) :
    (s'.refuse x.copy).refused = (s.refuse x).refused := by
  unfold refuse Encounter.copy
  cases x.element <;> simp [Element.copy, State.copy_eq, h]

theorem bookkeeping_repeated_copy (hlisted : s'.listed = s.listed)
    (hrefused : s'.refused = s.refused)
    (h : s'.recurrence first.copy x.copy = s.recurrence first x) :
    (s'.repeated first.copy x.copy).listed = (s.repeated first x).listed ∧
      (s'.repeated first.copy x.copy).refused = (s.repeated first x).refused := by
  unfold repeated
  rw [h]
  cases s.recurrence first x with
  | sameElement => exact ⟨hlisted, hrefused⟩
  | samePoint => exact ⟨hlisted, hrefused⟩
  | listing => exact ⟨by simp [hlisted], hrefused⟩
  | refusedListing shape => exact ⟨hlisted, by simp [hrefused]⟩
  | duplicate => exact ⟨by simp [report, hlisted], refused_refuse_copy hrefused x⟩

namespace IsCopy

theorem entries_meet (hcopy : s.IsCopy e s') (x : Encounter) :
    (s'.meet x.copy).entries = (s.meet x).entries.map (·.copy) := by
  rcases s.meet_cases x with ⟨hid, h⟩ | ⟨hid, hnew, h⟩ | ⟨first, hid, hfirst, h⟩
  · rw [h, meet_of_blank (Encounter.hasId_copy.not.2 hid)]
    exact hcopy.entries
  · rw [h, meet_of_new (Encounter.hasId_copy.2 hid) (hcopy.entry?_of_new hnew), hcopy.entries,
      List.map_append]
    rfl
  · rw [h, meet_of_entry (Encounter.hasId_copy.2 hid) (hcopy.entry?_of_entry hfirst),
      (repeated_frame _ _ _).1, (repeated_frame _ _ _).1, hcopy.entries]

theorem bookkeeping_meet {rest : List Task} {met : List Encounter} (hcopy : s.IsCopy e s')
    (hreach : Walk.Reachable e [] ⟨.visit x :: rest, met, s⟩) (he : e.Coherent)
    (hnames : e.NamesShared) :
    (s'.meet x.copy).listed = (s.meet x).listed ∧
      (s'.meet x.copy).refused = (s.meet x).refused := by
  obtain ⟨hlisted, hrefused⟩ := hcopy.bookkeeping he hnames
  rcases s.meet_cases x with ⟨hid, h⟩ | ⟨hid, hnew, h⟩ | ⟨first, hid, hfirst, h⟩
  · rw [h, meet_of_blank (Encounter.hasId_copy.not.2 hid)]
    exact ⟨hlisted, hrefused⟩
  · rw [h, meet_of_new (Encounter.hasId_copy.2 hid) (hcopy.entry?_of_new hnew)]
    exact ⟨hlisted, hrefused⟩
  · rw [h, meet_of_entry (Encounter.hasId_copy.2 hid) (hcopy.entry?_of_entry hfirst)]
    obtain ⟨-, ⟨-, hr⟩ | ⟨hshares, hsame, hr⟩⟩ :=
      hreach.recurrence_copy he hnames hcopy (entry?_eq_some hfirst).1
    · exact bookkeeping_repeated_copy hlisted hrefused hr
    · obtain ⟨n, -, hn⟩ := Encounter.sharesWith_iff.1 hshares
      have hne : x.copy.type ≠ .state := by
        rw [x.type_copy, Encounter.type, Element.type_of_definition? hn]
        nofun
      unfold repeated
      rw [hr, hsame, refuse_of_type_ne hne]
      exact ⟨hlisted, hrefused⟩

theorem meet {rest : List Task} {met : List Encounter} (hcopy : s.IsCopy e s')
    (h : Walk.Reachable e [] ⟨.visit x :: rest, met, s⟩) :
    (s.meet x).IsCopy e (s'.meet x.copy) where
  entries := hcopy.entries_meet x
  references := by rw [references_meet, references_meet, hcopy.references]
  containment := by rw [containment_meet, containment_meet, hcopy.containment]
  standIn := by rw [standIn_meet, standIn_meet, hcopy.standIn]
  association := by rw [association_meet, association_meet, hcopy.association]
  bookkeeping := hcopy.bookkeeping_meet h

theorem refer (h : s.IsCopy e s') (x : Encounter) (field : String) (target : Option String) :
    (s.refer x field target).IsCopy e (s'.refer x.copy field target) where
  entries := h.entries
  references := by simp [Survey.refer, h.references]
  containment := h.containment
  standIn := h.standIn
  association := h.association
  bookkeeping := h.bookkeeping

theorem link (h : s.IsCopy e s') (x : Encounter) (p : Part) :
    (s.link x p).IsCopy e (s'.link x.copy p.copy) := by
  unfold Survey.link
  rw [← Encounter.copy_part, Encounter.knownId?_copy, Encounter.knownId?_copy]
  split
  · next id target _ _ =>
    have hrefer := h.refer x p.step.text (some target)
    cases hrole : p.role <;> simp only [Part.copy, hrole] <;>
      exact ⟨hrefer.entries, hrefer.references, by simp only [hrefer.containment],
        by simp only [hrefer.standIn], by simp only [hrefer.association], hrefer.bookkeeping⟩
  · exact h

theorem settle (h : s.IsCopy e s') (x : Encounter) :
    (s.settle x).IsCopy e (s'.settle x.copy) := by
  cases hx : x.element with
  | transition t =>
    have hx' : x.copy.element = .transition t := by rw [Encounter.copy, hx]; rfl
    unfold Survey.settle
    simp only [hx, hx', referEnd_eq, Encounter.endReferences_copy]
    have hends : IsCopy e
        { s with references := s.references ++ x.endReferences t .source ++
          x.endReferences t .target }
        { s' with references := s'.references ++ x.endReferences t .source ++
          x.endReferences t .target } :=
      ⟨h.entries, by rw [h.references], h.containment, h.standIn, h.association, h.bookkeeping⟩
    split
    · split
      · exact hends
      · exact ⟨hends.entries, hends.references, hends.containment, hends.standIn,
          by simp only [h.association], hends.bookkeeping⟩
    · exact hends
  | state state =>
    have hx' : x.copy.element = .state state.copy := by rw [Encounter.copy, hx]; rfl
    unfold Survey.settle
    simp only [hx, hx', State.copy_eq, Option.isNone_map]
    split
    · exact h.refer x _ _
    · exact h
  | _ =>
    have hx' : x.copy.element = x.element.copy := rfl
    unfold Survey.settle
    simp only [hx, hx', Element.copy]
    exact h

end IsCopy

end Survey

def Task.copy : Task → Task
  | visit x => visit x.copy
  | follow x p => follow x.copy p.copy
  | settle x => settle x.copy

theorem Encounter.tasks_copy (x : Encounter) : x.copy.tasks = x.tasks.map (·.copy) := by
  have hparts : x.copy.element.parts = x.element.parts.map (·.copy) := x.element.parts_copy
  simp [tasks, hparts, Function.comp_def, Task.copy]

/-- The second walk is over the copy of what the first one is over, and as far as that. -/
structure Walk.IsCopy (e : Element) (v v' : Walk) : Prop where
  agenda : v'.agenda = v.agenda.map (·.copy)
  survey : v.survey.IsCopy e v'.survey

/-- An arrival at an element and the one at its copy. -/
structure Arrival.IsCopy (e : Element) (a a' : Arrival) : Prop where
  encounter : a'.encounter = a.encounter.copy
  survey : a.survey.IsCopy e a'.survey

namespace Walk

variable {e : Element} {u v v' w : Walk} {log : List Arrival}

theorem IsCopy.arrival? (h : v.IsCopy e v') :
    List.Forall₂ (Arrival.IsCopy e) v.arrival?.toList v'.arrival?.toList := by
  obtain ⟨agenda, met, s⟩ := v
  obtain ⟨agenda', met', s'⟩ := v'
  obtain ⟨hagenda, hsurvey⟩ := h
  obtain rfl : agenda' = agenda.map (·.copy) := hagenda
  match agenda with
  | [] => exact .nil
  | .visit x :: rest => exact .cons ⟨rfl, hsurvey⟩ .nil
  | .follow x p :: rest => exact .nil
  | .settle x :: rest => exact .nil

/-- Each step over the original is a step over the copy. -/
theorem IsCopy.step (h : v.IsCopy e v') (hreach : Reachable e [] v) (hstep : Step v w) :
    ∃ w', Step v' w' ∧ w.IsCopy e w' := by
  obtain ⟨agenda', met', s'⟩ := v'
  obtain ⟨hagenda, hsurvey⟩ := h
  cases hstep with
  | @pass x rest met s hpass =>
    obtain rfl : agenda' = .visit x.copy :: rest.map (·.copy) := hagenda
    exact ⟨_, .pass ((hsurvey.enters x).trans hpass), rfl, hsurvey.meet hreach⟩
  | @enter x rest met s henter =>
    obtain rfl : agenda' = .visit x.copy :: rest.map (·.copy) := hagenda
    refine ⟨_, .enter ((hsurvey.enters x).trans henter), ?_, hsurvey.meet hreach⟩
    rw [x.tasks_copy, ← List.map_append]
  | @follow x p rest met s =>
    obtain rfl : agenda' = .follow x.copy p.copy :: rest.map (·.copy) := hagenda
    refine ⟨_, .follow, ?_, hsurvey.link x p⟩
    rw [← x.copy_part]
    rfl
  | @settle x rest met s =>
    obtain rfl : agenda' = .settle x.copy :: rest.map (·.copy) := hagenda
    exact ⟨_, .settle, rfl, hsurvey.settle x⟩

/-- A walk over the original has its like over the copy, arrival by arrival. -/
theorem IsCopy.trace (h : Trace v log w) (hcopy : v.IsCopy e v') (hreach : Reachable e [] v) :
    ∃ log' w', Trace v' log' w' ∧ w.IsCopy e w' ∧ List.Forall₂ (Arrival.IsCopy e) log log' := by
  induction h generalizing v' with
  | refl => exact ⟨[], v', .refl, hcopy, .nil⟩
  | head hstep _ ih =>
    obtain ⟨u', hstep', hcopy'⟩ := hcopy.step hreach hstep
    obtain ⟨log', w', hrest, hend, hlog⟩ := ih hcopy' (hreach.tail hstep)
    exact ⟨_, w', .head hstep' hrest, hend, List.rel_append hcopy.arrival? hlog⟩

end Walk

/-- The survey of a copy is a copy of the survey, and so are its arrivals. -/
theorem Element.survey_copy (e : Element) :
    (e.survey []).IsCopy e (e.copy.survey []) ∧
      List.Forall₂ (Arrival.IsCopy e) (e.arrivals []) (e.copy.arrivals []) := by
  have hstart : (Walk.start e []).IsCopy e (Walk.start e.copy []) := by
    refine ⟨?_, rfl, rfl, rfl, rfl, rfl, fun _ _ => ⟨rfl, rfl⟩⟩
    rw [Walk.start, ← Encounter.copy_ofRoot]
    rfl
  obtain ⟨log', w', htrace, hend, hlog⟩ :=
    Walk.IsCopy.trace (Walk.survey_trace e []) hstart .refl
  obtain ⟨rfl, rfl⟩ := (Walk.survey_trace e.copy []).unique rfl htrace hend.agenda
  exact ⟨hend.survey, hlog⟩

end Statechart
