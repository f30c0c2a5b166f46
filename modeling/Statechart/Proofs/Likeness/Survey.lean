import Statechart.Proofs.Likeness.Basic
import Statechart.Proofs.Integrity.Checks
import Statechart.Proofs.Survey.Log

/-! The walks over like models that hold the same instances at the same places. They go in step: a
walk decides by IDs, shapes, points and instances, and these are the same. -/

namespace Statechart

/-- What a transition associates is read off the IDs of its ends. -/
theorem Survey.association_settle_transition {s : Survey} {x : Encounter} {t : Transition}
    (h : x.element = .transition t) :
    (s.settle x).association =
      match t.sourceId?, t.targetId? with
      | some a, some b =>
        if Text.isBlank a || Text.isBlank b then s.association else s.association.insertBoth a b
      | _, _ => s.association := by
  unfold settle Transition.sourceId? Transition.targetId?
  simp only [h, referEnd_eq]
  cases t.source <;> cases t.target <;> simp only [Option.map_some, Option.map_none]
  split <;> rfl

namespace Likeness

/-- The surveys agree but for the elements, which are alike. If the likeness keeps the slots then
they also agree in what the elements refer to. -/
structure SurveyAlike (L : Likeness) (s s' : Survey) : Prop where
  entries : List.Forall₂ L.Alike s.entries s'.entries
  listed : s'.listed = s.listed
  refused : s'.refused = s.refused
  edges : ∀ r, s'.edges r = s.edges r
  defects : s'.defects = s.defects
  references : L.KeepsSlots → s'.references = s.references
  association : L.KeepsSlots → s'.association = s.association

inductive TaskAlike (L : Likeness) : Task → Task → Prop where
  | visit {x x' : Encounter} (hx : L.Alike x x') : TaskAlike L (.visit x) (.visit x')
  | follow {x x' : Encounter} {p p' : Part} (hx : L.Alike x x') (hp : L.PartAlike p p') :
    TaskAlike L (.follow x p) (.follow x' p')
  | settle {x x' : Encounter} (hx : L.Alike x x') : TaskAlike L (.settle x) (.settle x')

structure WalkAlike (L : Likeness) (v v' : Walk) : Prop where
  agenda : List.Forall₂ L.TaskAlike v.agenda v'.agenda
  met : List.Forall₂ L.Alike v.met v'.met
  survey : L.SurveyAlike v.survey v'.survey

variable {L : Likeness} {e e' : Element} {place : Locator} {s s' : Survey}
  {x x' first first' : Encounter} {p p' : Part} {v v' w : Walk}

theorem Alike.tasks (h : L.Alike x x') : List.Forall₂ L.TaskAlike x.tasks x'.tasks := by
  refine List.rel_append ?_ (.cons (.settle h) .nil)
  rw [List.forall₂_map_left_iff, List.forall₂_map_right_iff]
  exact (partsAlike h.element).imp fun _ _ hp => .follow h hp

/-! ### Operations of a survey -/

theorem KeepsSlots.ownReferences (hL : L.KeepsSlots) (h : L.Alike x x') :
    x'.ownReferences = x.ownReferences := by
  have hx := h.element
  unfold Encounter.ownReferences
  cases helement : x.element with
  | transition t =>
    obtain ⟨t', ht', hends⟩ := hL.transition (helement ▸ hx)
    have hside (side : TransitionEnd) : x'.endReferences t' side = x.endReferences t side := by
      have hend := hends side
      unfold Encounter.endReferences
      rw [h.type, h.place]
      cases hv : t.atEnd side <;> cases hv' : t'.atEnd side <;>
        simp_all
    simp only [ht', hside]
  | state s =>
    obtain ⟨s', hs', hflag, hslot⟩ := hL.state (helement ▸ hx)
    simp only [hs', hflag, hslot, h.type, h.place]
  | _ =>
    have htype := L.type_eq hx
    rw [helement] at htype
    cases helement' : x'.element <;> rw [helement'] at htype <;> first | rfl | cases htype

namespace SurveyAlike

theorem entry? (h : L.SurveyAlike s s') (id : String) :
    Option.Rel L.Alike (s.entry? id) (s'.entry? id) := by
  unfold Survey.entry?
  have hentries := h.entries
  generalize s.entries = l, s'.entries = l' at hentries
  induction hentries with
  | nil => exact .none
  | @cons x x' l l' hx _ ih =>
    rw [List.find?_cons, List.find?_cons, hx.id]
    split
    · exact .some hx
    · exact ih

theorem entry?_of_new (h : L.SurveyAlike s s') {id : String} (hnew : s.entry? id = none) :
    s'.entry? id = none := by
  have hrel := h.entry? id
  rw [hnew] at hrel
  generalize s'.entry? id = found at hrel
  cases hrel
  rfl

theorem entry?_of_entry (h : L.SurveyAlike s s') {id : String} (hfirst : s.entry? id = some first) :
    ∃ first', s'.entry? id = some first' ∧ L.Alike first first' := by
  have hrel := h.entry? id
  rw [hfirst] at hrel
  generalize s'.entry? id = found at hrel
  cases hrel with
  | some halike => exact ⟨_, rfl, halike⟩

theorem enters (h : L.SurveyAlike s s') (hx : L.Alike x x') : s'.enters x' = s.enters x := by
  rw [Bool.eq_iff_iff, Survey.enters_iff, Survey.enters_iff, hasId_iff hx.element, hx.id]
  refine imp_congr_right fun _ => ⟨fun hnone => ?_, h.entry?_of_new⟩
  cases hfirst : s.entry? x.id with
  | none => rfl
  | some first =>
    obtain ⟨first', hfirst', -⟩ := h.entry?_of_entry hfirst
    rw [hnone] at hfirst'
    cases hfirst'

theorem refusal (h : L.SurveyAlike s s') (hx : L.Alike x x') : s'.refusal x' = s.refusal x := by
  unfold Survey.refusal
  split
  · next v hv => simp only [rel_vertex (hv ▸ hx.element), hx.owner, h.refused]
  · next hv' =>
    split
    · next v hv => exact absurd (L.vertex (hv ▸ hx.element)) (hv' v)
    · rfl

theorem recurrence (h : L.SurveyAlike s s') (hfirst : L.Alike first first') (hx : L.Alike x x')
    (horigin : first'.origin = x'.origin ↔ first.origin = x.origin) :
    s'.recurrence first' x' = s.recurrence first x := by
  unfold Survey.recurrence
  simp only [horigin, hfirst.isSamePoint hx, hfirst.isListing hx, hx.id, h.listed, h.refusal hx]

theorem refused_refuse (h : L.SurveyAlike s s') (hx : L.Alike x x') :
    (s'.refuse x').refused = (s.refuse x).refused := by
  unfold Survey.refuse
  split
  · next t' ht' =>
    obtain ⟨t, ht, hshape⟩ := rel_state (ht' ▸ hx.element)
    simp only [ht, h.refused, hx.owner, hshape]
  · next hstate' =>
    split
    · next t ht =>
      obtain ⟨t', ht', -⟩ := L.state (ht ▸ hx.element)
      exact absurd ht' (hstate' t')
    · exact h.refused

theorem repeated (h : L.SurveyAlike s s') (hfirst : L.Alike first first') (hx : L.Alike x x')
    (horigin : first'.origin = x'.origin ↔ first.origin = x.origin) :
    L.SurveyAlike (s.repeated first x) (s'.repeated first' x') := by
  obtain ⟨hentries, hedges, hreferences, hassociation⟩ := s.repeated_frame first x
  obtain ⟨hentries', hedges', hreferences', hassociation'⟩ := s'.repeated_frame first' x'
  have hbooks : (s'.repeated first' x').listed = (s.repeated first x).listed ∧
      (s'.repeated first' x').refused = (s.repeated first x).refused ∧
      (s'.repeated first' x').defects = (s.repeated first x).defects := by
    unfold Survey.repeated
    rw [h.recurrence hfirst hx horigin]
    cases s.recurrence first x with
    | sameElement => exact ⟨h.listed, h.refused, h.defects⟩
    | samePoint => exact ⟨h.listed, h.refused, h.defects⟩
    | listing => exact ⟨by simp [hx.id, h.listed], h.refused, h.defects⟩
    | refusedListing shape => exact ⟨h.listed, by simp [hx.owner, h.refused], h.defects⟩
    | duplicate =>
      refine ⟨by simp [Survey.report, h.listed], h.refused_refuse hx, ?_⟩
      simp [Survey.report, h.defects, hx.id, hx.type, hx.place, hfirst.type, hfirst.place]
  exact ⟨by rw [hentries, hentries']; exact h.entries, hbooks.1, hbooks.2.1,
    fun r => by rw [hedges', hedges, h.edges], hbooks.2.2,
    fun hL => by rw [hreferences', hreferences, h.references hL],
    fun hL => by rw [hassociation', hassociation, h.association hL]⟩

theorem meet (h : L.SurveyAlike s s') (hx : L.Alike x x')
    (horigin : ∀ first ∈ s.entries, ∀ first' ∈ s'.entries, L.Alike first first' →
      (first'.origin = x'.origin ↔ first.origin = x.origin)) :
    L.SurveyAlike (s.meet x) (s'.meet x') := by
  rcases s.meet_cases x with ⟨hid, heq⟩ | ⟨hid, hnew, heq⟩ | ⟨first, hid, hfirst, heq⟩
  · rw [heq, Survey.meet_of_blank ((hasId_iff hx.element).not.2 hid)]
    exact ⟨h.entries, h.listed, h.refused, h.edges,
      by simp [Survey.report, h.defects, hx.type, hx.place], h.references, h.association⟩
  · rw [heq, Survey.meet_of_new ((hasId_iff hx.element).2 hid) (hx.id ▸ h.entry?_of_new hnew)]
    exact ⟨List.rel_append h.entries (.cons hx .nil), h.listed, h.refused, h.edges, h.defects,
      h.references, h.association⟩
  · obtain ⟨first', hfirst', halike⟩ := h.entry?_of_entry hfirst
    rw [heq, Survey.meet_of_entry ((hasId_iff hx.element).2 hid) (hx.id ▸ hfirst')]
    have hmem := (Survey.entry?_eq_some hfirst).1
    have hmem' := (Survey.entry?_eq_some hfirst').1
    exact h.repeated halike hx (horigin first hmem first' hmem' halike)

theorem link (h : L.SurveyAlike s s') (hx : L.Alike x x') (hp : L.PartAlike p p') :
    L.SurveyAlike (s.link x p) (s'.link x' p') := by
  have hids : x'.element.HasId ∧ p'.element.HasId ↔ x.element.HasId ∧ p.element.HasId :=
    and_congr (hasId_iff hx.element) (hasId_iff hp.element)
  have hpid : p'.element.id = p.element.id := L.id_eq hp.element
  have hreferences (hL : L.KeepsSlots) : (s'.link x' p').references = (s.link x p).references := by
    simp only [Survey.references_link, h.references hL, hids, hx.type, hx.place, hp.step, hpid]
  by_cases hid : x.element.HasId ∧ p.element.HasId
  · have hid' := hids.2 hid
    have hcontainment : s'.containment = s.containment := congrArg Digraph.mk (h.edges .containment)
    have hstandIn : s'.standIn = s.standIn := congrArg Digraph.mk (h.edges .submachine)
    rw [Survey.link_of_hasId hid.1 hid.2, Survey.link_of_hasId hid'.1 hid'.2, hp.role, hx.id,
      hpid] at hreferences ⊢
    cases hrole : p.role <;> simp only [hrole] at hreferences ⊢ <;>
      exact ⟨h.entries, h.listed, h.refused,
        fun r => by cases r <;> simp [Survey.edges, Survey.refer, hcontainment, hstandIn],
        h.defects, hreferences, fun hL => by simp [Survey.refer, h.association hL]⟩
  · rw [Survey.link_of_blank hid, Survey.link_of_blank (hids.not.2 hid)]
    exact h

theorem association_settle (h : L.SurveyAlike s s') (hx : L.Alike x x') (hL : L.KeepsSlots) :
    (s'.settle x').association = (s.settle x).association := by
  by_cases htransition : ∃ t, x.element = .transition t
  · obtain ⟨t, ht⟩ := htransition
    obtain ⟨t', ht', hends⟩ := hL.transition (ht ▸ hx.element)
    have hsource : t'.sourceId? = t.sourceId? := hends .source
    have htarget : t'.targetId? = t.targetId? := hends .target
    rw [Survey.association_settle_transition ht, Survey.association_settle_transition ht',
      hsource, htarget, h.association hL]
  · have hnone (t : Transition) : x.element ≠ .transition t := fun ht => htransition ⟨t, ht⟩
    have hnone' (t' : Transition) : x'.element ≠ .transition t' := by
      intro ht'
      have htype : x.element.type = .transition := by rw [← L.type_eq hx.element, ht']; rfl
      cases ht : x.element <;> rw [ht] at htype <;> first | exact hnone _ ht | cases htype
    rw [Survey.association_settle hnone, Survey.association_settle hnone', h.association hL]

theorem settle (h : L.SurveyAlike s s') (hx : L.Alike x x') :
    L.SurveyAlike (s.settle x) (s'.settle x') where
  entries := by simpa using h.entries
  listed := by simp [h.listed]
  refused := by simp [h.refused]
  edges r := by simp [h.edges]
  defects := by simp [h.defects]
  references hL := by simp [h.references hL, hL.ownReferences hx]
  association := h.association_settle hx

/-- The checks see no difference, if the likeness keeps the slots. -/
theorem sameRecord (h : L.SurveyAlike s s') (hL : L.KeepsSlots) : s.SameRecord s' where
  headings id := by
    have hrel := h.entry? id
    unfold Survey.heading?
    generalize s.entry? id = found, s'.entry? id = found' at hrel
    cases hrel with
    | none => rfl
    | some halike => simp [halike.type, halike.place]
  references := h.references hL
  edges := h.edges
  association := h.association hL

end SurveyAlike

/-! ### Walks -/

/-- Each step of one walk is a step of the other. -/
theorem WalkAlike.step (h : L.WalkAlike v v') (hsame : e.SameInstances e' place)
    (hreach : Walk.Reachable e place v) (hreach' : Walk.Reachable e' place v')
    (hstep : Walk.Step v w) : ∃ w', Walk.Step v' w' ∧ L.WalkAlike w w' := by
  obtain ⟨agenda', met', s'⟩ := v'
  obtain ⟨hagenda, hmet, hsurvey⟩ := h
  -- what was recorded so far is compared with the next encounter as the instances compare
  have hmeet {x x' rest rest' met s} (hreach : Walk.Reachable e place ⟨.visit x :: rest, met, s⟩)
      (hreach' : Walk.Reachable e' place ⟨.visit x' :: rest', met', s'⟩) (hx : L.Alike x x')
      (hsurvey : L.SurveyAlike s s') : L.SurveyAlike (s.meet x) (s'.meet x') := by
    refine hsurvey.meet hx fun first hfirst first' hfirst' halike => ?_
    exact hsame first (hreach.met_subset (hreach.entries_subset hfirst)) x hreach.next_mem
      first' (hreach'.met_subset (hreach'.entries_subset hfirst')) x' hreach'.next_mem
      halike.place hx.place
  cases hstep with
  | pass hpass =>
    obtain ⟨hx⟩ | ⟨htask, hrest⟩ := hagenda
    cases htask with
    | visit hx =>
      exact ⟨_, .pass ((hsurvey.enters hx).trans hpass), hrest,
        List.rel_append hmet (.cons hx .nil), hmeet hreach hreach' hx hsurvey⟩
  | enter henter =>
    obtain ⟨hx⟩ | ⟨htask, hrest⟩ := hagenda
    cases htask with
    | visit hx =>
      exact ⟨_, .enter ((hsurvey.enters hx).trans henter), List.rel_append hx.tasks hrest,
        List.rel_append hmet (.cons hx .nil), hmeet hreach hreach' hx hsurvey⟩
  | follow =>
    obtain ⟨hx⟩ | ⟨htask, hrest⟩ := hagenda
    cases htask with
    | follow hx hp =>
      exact ⟨_, .follow, .cons (.visit (hx.part hp)) hrest, hmet, hsurvey.link hx hp⟩
  | settle =>
    obtain ⟨hx⟩ | ⟨htask, hrest⟩ := hagenda
    cases htask with
    | settle hx => exact ⟨_, .settle, hrest, hmet, hsurvey.settle hx⟩

/-- A walk over one model has its like over the other. -/
theorem WalkAlike.trace {log : List Arrival} (htrace : Walk.Trace v log w) (h : L.WalkAlike v v')
    (hsame : e.SameInstances e' place) (hreach : Walk.Reachable e place v)
    (hreach' : Walk.Reachable e' place v') :
    ∃ log' w', Walk.Trace v' log' w' ∧ L.WalkAlike w w' := by
  induction htrace generalizing v' with
  | refl => exact ⟨[], v', .refl, h⟩
  | head hstep _ ih =>
    obtain ⟨u', hstep', hu⟩ := h.step hsame hreach hreach' hstep
    obtain ⟨log', w', hrest, hw⟩ := ih hu (hreach.tail hstep) (hreach'.tail hstep')
    exact ⟨_, w', .head hstep' hrest, hw⟩

/-- The walks over like models meet like elements, and their surveys are alike. -/
theorem survey (h : L.Rel e e') (hsame : e.SameInstances e' place) :
    L.SurveyAlike (e.survey place) (e'.survey place) ∧
      List.Forall₂ L.Alike (e.encounters place) (e'.encounters place) := by
  have hstart : L.WalkAlike (.start e place) (.start e' place) :=
    ⟨.cons (.visit (alike_ofRoot h place)) .nil, .nil,
      .nil, rfl, rfl, fun _ => rfl, rfl, fun _ => rfl, fun _ => rfl⟩
  obtain ⟨log', w', htrace, hend⟩ :=
    WalkAlike.trace (Walk.survey_trace e place) hstart hsame .refl .refl
  have hdone : w'.agenda = [] := List.forall₂_nil_left_iff.1 hend.agenda
  obtain ⟨-, rfl⟩ := htrace.unique hdone (Walk.survey_trace e' place) rfl
  exact ⟨hend.survey, hend.met⟩

theorem exists_walks (h : L.Rel e e') (hsame : e.SameInstances e' place)
    (hx : e.Walks place x) : ∃ x', e'.Walks place x' ∧ L.Alike x x' := by
  obtain ⟨hsurvey, hmet⟩ := survey h hsame
  obtain ⟨x', hx', hxx'⟩ := exists_of_mem_forall₂ hmet hx.1
  refine ⟨x', ⟨hx', fun hid => ?_⟩, hxx'⟩
  obtain ⟨y', hy', hxy'⟩ :=
    exists_of_mem_forall₂ hsurvey.entries (hx.2 ((hasId_iff hxx'.element).1 hid))
  have hmem := (Walk.reachable_survey e' place).entries_subset hy'
  rwa [Encounter.eq_of_place_eq (Element.encounters_subset_tree hx')
    (Element.encounters_subset_tree hmem) (hxx'.place.trans hxy'.place.symm)]

theorem exists_walks_of_walks (h : L.Rel e e') (hsame : e.SameInstances e' place)
    (hx' : e'.Walks place x') : ∃ x, e.Walks place x ∧ L.Alike x x' := by
  obtain ⟨hsurvey, hmet⟩ := survey h hsame
  obtain ⟨x, hx, hxx'⟩ := exists_of_mem_forall₂ hmet.flip hx'.1
  refine ⟨x, ⟨hx, fun hid => ?_⟩, hxx'⟩
  obtain ⟨y, hy, hyx'⟩ :=
    exists_of_mem_forall₂ hsurvey.entries.flip (hx'.2 ((hasId_iff hxx'.element).2 hid))
  have hmem := (Walk.reachable_survey e place).entries_subset hy
  rwa [Encounter.eq_of_place_eq (Element.encounters_subset_tree hx)
    (Element.encounters_subset_tree hmem) (hxx'.place.symm.trans hyx'.place)]

/-- Like models with the same slots get the same defects. -/
theorem KeepsSlots.integrityDefects (hL : L.KeepsSlots) (h : L.Rel e e')
    (hsame : e.SameInstances e' place) {options options' : Options}
    (hlimit : options'.maxCycleDepth = options.maxCycleDepth) :
    e'.integrityDefects options' place = e.integrityDefects options place := by
  have hsurvey := (survey h hsame).1
  rw [Element.integrityDefects_eq_append, Element.integrityDefects_eq_append, hsurvey.defects,
    (hsurvey.sameRecord hL).checkDefects, hlimit]

end Likeness

end Statechart
