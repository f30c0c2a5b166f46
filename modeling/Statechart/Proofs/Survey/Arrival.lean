import Statechart.Proofs.Survey.Listing

/-! Arrivals. What a survey reports and which states it takes for listed is what its arrivals add,
each by itself: an arrival at a taken ID is passed over or reported, as the survey at that moment
says. So a finding is traced to one arrival, and an encounter is reported if and only if its own
arrival was. -/

namespace Statechart

/-- An element is a duplicate of the first one with its ID unless it repeats that element, lists it
for the first time, or is the listing of a state that was refused. -/
theorem Survey.recurrence_eq_duplicate {s : Survey} {first x : Encounter} :
    s.recurrence first x = .duplicate ↔
      first.origin ≠ x.origin ∧ first.isSamePoint x = false ∧
        (first.isListing x = true → x.id ∈ s.listed) ∧
        ∀ v, x.element = .vertex v → (x.owner, v) ∉ s.refused := by
  unfold recurrence
  split
  · next horigin => simp [horigin]
  split
  · next hpoint => simp [hpoint]
  split
  · next hlisting => simp [hlisting.1, hlisting.2]
  · next horigin hpoint hlisting =>
    have hlisted : first.isListing x = true → x.id ∈ s.listed := by
      intro hpair
      exact not_not.1 fun hnew => hlisting ⟨hpair, hnew⟩
    simp only [ne_eq, horigin, not_false_eq_true, hpoint, true_and]
    unfold refusal
    split
    · next v hv =>
      split
      · next hmem => simpa [hv] using fun _ => hmem
      · next hmem =>
        simp only [true_iff]
        refine ⟨hlisted, ?_⟩
        intro v' hv'
        cases hv.symm.trans hv'
        exact hmem
    · next hv =>
      simp only [true_iff]
      exact ⟨hlisted, fun v hv' => absurd hv' (hv v)⟩

namespace Arrival

/-- How the encounter relates to the first one with its ID. There is none if the element has no ID
or is itself the first one. -/
def recurrence? (a : Arrival) : Option Recurrence :=
  (a.encounter.knownId?.bind a.survey.entry?).map (a.survey.recurrence · a.encounter)

/-- The element is recorded for its ID, or passes for the one that is. -/
def IsAccepted (a : Arrival) : Prop :=
  a.encounter.element.HasId ∧ a.recurrence? ∈
    [none, some .sameElement, some .samePoint, some .listing]

instance (a : Arrival) : Decidable a.IsAccepted := inferInstanceAs (Decidable (_ ∧ _))

/-- What is reported at the arrival. -/
def defects (a : Arrival) : Defects :=
  match a.encounter.knownId? with
  | none => [⟨a.encounter.type, a.encounter.place, .noId⟩]
  | some id =>
    match a.survey.entry? id with
    | none => []
    | some first =>
      if a.survey.recurrence first a.encounter = .duplicate then
        [⟨a.encounter.type, a.encounter.place, .duplicateId id first.type first.place⟩]
      else []

variable {s : Survey} {x first : Encounter} {a : Arrival} {r : Recurrence} {d : Located Defect}
  {id : String}

theorem recurrence?_eq_some :
    a.recurrence? = some r ↔ ∃ first, a.encounter.element.HasId ∧
      a.survey.entry? a.encounter.id = some first ∧ a.survey.recurrence first a.encounter = r := by
  simp only [recurrence?, Option.map_eq_some_iff, Option.bind_eq_some_iff,
    Encounter.knownId?_eq_some]
  constructor
  · rintro ⟨first, ⟨id, ⟨hid, rfl⟩, hfirst⟩, hr⟩
    exact ⟨first, hid, hfirst, hr⟩
  · rintro ⟨first, hid, hfirst, hr⟩
    exact ⟨first, ⟨_, ⟨hid, rfl⟩, hfirst⟩, hr⟩

theorem recurrence?_eq_none :
    a.recurrence? = none ↔
      (a.encounter.element.HasId → a.survey.entry? a.encounter.id = none) := by
  rw [Option.eq_none_iff_forall_ne_some]
  simp only [ne_eq, recurrence?_eq_some, not_exists, not_and]
  rw [Option.eq_none_iff_forall_ne_some]
  constructor
  · intro h hid first hfirst
    exact h _ first hid hfirst rfl
  · intro h r first hid hfirst _
    exact h hid first hfirst

theorem defects_of_blank (h : ¬ x.element.HasId) :
    defects ⟨x, s⟩ = [⟨x.type, x.place, .noId⟩] := by
  unfold defects
  rw [Encounter.knownId?_eq_none.2 h]

theorem defects_of_new (h : x.element.HasId) (hnew : s.entry? x.id = none) :
    defects ⟨x, s⟩ = [] := by
  unfold defects
  rw [Encounter.knownId?_eq_some.2 ⟨h, rfl⟩]
  simp only [hnew]

theorem defects_of_entry (h : x.element.HasId) (hfirst : s.entry? x.id = some first) :
    defects ⟨x, s⟩ = if s.recurrence first x = .duplicate then
      [⟨x.type, x.place, .duplicateId x.id first.type first.place⟩] else [] := by
  unfold defects
  rw [Encounter.knownId?_eq_some.2 ⟨h, rfl⟩]
  simp only [hfirst]

theorem mem_defects :
    d ∈ a.defects ↔ d.type = a.encounter.type ∧ d.place = a.encounter.place ∧
      (¬ a.encounter.element.HasId ∧ d.cause = .noId ∨
        ∃ first, a.encounter.element.HasId ∧ a.survey.entry? a.encounter.id = some first ∧
          a.survey.recurrence first a.encounter = .duplicate ∧
          d.cause = .duplicateId a.encounter.id first.type first.place) := by
  obtain ⟨type, place, cause⟩ := d
  obtain ⟨x, s⟩ := a
  by_cases hid : x.element.HasId
  · cases hfirst : s.entry? x.id with
    | none => simp [defects_of_new hid hfirst, hid]
    | some first =>
      by_cases hr : s.recurrence first x = .duplicate <;>
        simp [defects_of_entry hid hfirst, hid, hr]
  · simp [defects_of_blank hid, hid]

theorem defects_meet (s : Survey) (x : Encounter) :
    (s.meet x).defects = s.defects ++ Arrival.defects ⟨x, s⟩ := by
  rcases s.meet_cases x with ⟨hid, h⟩ | ⟨hid, hnew, h⟩ | ⟨first, hid, hfirst, h⟩
  · rw [h, defects_of_blank hid]
    rfl
  · rw [h, defects_of_new hid hnew, List.append_nil]
  · rw [h, defects_of_entry hid hfirst]
    unfold Survey.repeated
    cases hr : s.recurrence first x <;> simp [Survey.report]

theorem mem_listed_meet :
    id ∈ (s.meet x).listed ↔
      id ∈ s.listed ∨ x.id = id ∧ Arrival.recurrence? ⟨x, s⟩ = some .listing := by
  rcases s.meet_cases x with ⟨hid, h⟩ | ⟨hid, hnew, h⟩ | ⟨first, hid, hfirst, h⟩
  · have hnone : Arrival.recurrence? ⟨x, s⟩ = none :=
      recurrence?_eq_none.2 fun hid' => absurd hid' hid
    rw [h, hnone]
    simp [Survey.report]
  · have hnone : Arrival.recurrence? ⟨x, s⟩ = none := recurrence?_eq_none.2 fun _ => hnew
    rw [h, hnone]
    simp
  · have hsome : Arrival.recurrence? ⟨x, s⟩ = some (s.recurrence first x) :=
      recurrence?_eq_some.2 ⟨first, hid, hfirst, rfl⟩
    rw [h, hsome]
    unfold Survey.repeated
    cases hr : s.recurrence first x <;> simp [Survey.report, eq_comm, or_comm]

end Arrival

/-- The first element met with an ID. -/
def Element.first? (e : Element) (place : Locator) (id : String) : Option Encounter :=
  Survey.entry? (e.survey place) id

namespace Walk

variable {e : Element} {place : Locator} {u v w : Walk} {x : Encounter} {a b : Arrival}
  {log log' : List Arrival} {id : String}

theorem arrival?_eq_some (h : v.arrival? = some a) :
    v = ⟨.visit a.encounter :: v.agenda.tail, v.met, a.survey⟩ := by
  unfold arrival? at h
  split at h
  · cases h
    rfl
  · cases h

theorem Step.of_arrival (h : Step v w) (ha : v.arrival? = some a) :
    w.met = v.met ++ [a.encounter] ∧ w.survey = a.survey.meet a.encounter := by
  rw [arrival?_eq_some ha] at h
  cases h <;> exact ⟨rfl, rfl⟩

/-- Only arrivals add to the defects and the listed IDs. -/
theorem Step.of_no_arrival (h : Step v w) (hnone : v.arrival? = none) :
    w.survey.defects = v.survey.defects ∧ w.survey.listed = v.survey.listed := by
  cases h with
  | pass => cases hnone
  | enter => cases hnone
  | follow => exact ⟨Survey.defects_link, Survey.listed_link⟩
  | settle => exact ⟨Survey.defects_settle, Survey.listed_settle⟩

namespace Trace

theorem defects (h : Trace u log v) :
    v.survey.defects = u.survey.defects ++ log.flatMap Arrival.defects := by
  induction h with
  | refl => simp
  | @head u v w log hstep _ ih =>
    cases ha : u.arrival? with
    | none => simpa [(hstep.of_no_arrival ha).1] using ih
    | some a =>
      have hsurvey : u.survey = a.survey := by rw [arrival?_eq_some ha]
      rw [ih, (hstep.of_arrival ha).2, Arrival.defects_meet, hsurvey]
      simp

theorem mem_listed (h : Trace u log v) :
    id ∈ v.survey.listed ↔ id ∈ u.survey.listed ∨
      ∃ a ∈ log, a.encounter.id = id ∧ a.recurrence? = some .listing := by
  induction h with
  | refl => simp
  | @head u v w log hstep _ ih =>
    cases ha : u.arrival? with
    | none => simpa [(hstep.of_no_arrival ha).2] using ih
    | some a =>
      have hsurvey : u.survey = a.survey := by rw [arrival?_eq_some ha]
      rw [ih, (hstep.of_arrival ha).2, Arrival.mem_listed_meet, hsurvey]
      simp [or_assoc]

end Trace

theorem Run.entries_subset (h : Run u v) : u.survey.entries ⊆ v.survey.entries := by
  induction h with
  | refl => exact List.Subset.refl _
  | tail _ hstep ih => exact List.Subset.trans ih hstep.grows.entries

/-- The survey of an element, cut at one of its arrivals. -/
theorem exists_trace_at (h : e.arrivals place = log ++ a :: log') :
    ∃ rest, Trace (start e place) log
        ⟨.visit a.encounter :: rest, log.map (·.encounter), a.survey⟩ ∧
      Trace ⟨.visit a.encounter :: rest, log.map (·.encounter), a.survey⟩ (a :: log')
        ⟨[], e.encounters place, e.survey place⟩ := by
  obtain ⟨u, v, hbefore, ha, hstep, hafter⟩ := (h ▸ survey_trace e place).split
  have hfrom := Trace.head hstep hafter
  have hmet : u.met = log.map (·.encounter) := hbefore.met
  rw [ha] at hfrom
  rw [arrival?_eq_some ha, hmet] at hbefore hfrom
  exact ⟨_, hbefore, hfrom⟩

theorem reachable_at (h : e.arrivals place = log ++ a :: log') :
    ∃ rest, Reachable e place
      ⟨.visit a.encounter :: rest, log.map (·.encounter), a.survey⟩ := by
  obtain ⟨rest, hbefore, -⟩ := exists_trace_at h
  exact ⟨rest, hbefore.run⟩

theorem mem_listed_of_arrival (h : e.arrivals place = log ++ a :: log') :
    id ∈ a.survey.listed ↔ ∃ b ∈ log, b.encounter.id = id ∧ b.recurrence? = some .listing := by
  obtain ⟨rest, hbefore, -⟩ := exists_trace_at h
  rw [hbefore.mem_listed]
  simp [start]

/-- A survey reports what its arrivals report. -/
theorem survey_defects (e : Element) (place : Locator) :
    (e.survey place).defects = (e.arrivals place).flatMap Arrival.defects := by
  simpa [start] using (survey_trace e place).defects

/-- A finding of a survey is reported at one of its arrivals. -/
theorem mem_survey_defects {d : Located Defect} :
    d ∈ (e.survey place).defects ↔ ∃ a ∈ e.arrivals place, d ∈ a.defects := by
  rw [survey_defects, List.mem_flatMap]

theorem reachable_survey (e : Element) (place : Locator) :
    Reachable e place ⟨[], e.encounters place, e.survey place⟩ := (survey_trace e place).run

/-- What is met at an arrival was not met before. -/
theorem encounter_ne_of_mem (h : e.arrivals place = log ++ a :: log') (hb : b ∈ log) :
    b.encounter ≠ a.encounter := by
  obtain ⟨rest, hreach⟩ := reachable_at h
  intro heq
  exact hreach.not_met (heq ▸ List.mem_map_of_mem hb)

theorem first?_of_arrival (h : e.arrivals place = log ++ a :: log')
    (hfirst : a.survey.entry? id = some x) : e.first? place id = some x := by
  obtain ⟨hmem, rfl⟩ := Survey.entry?_eq_some hfirst
  obtain ⟨rest, -, hafter⟩ := exists_trace_at h
  exact (reachable_survey e place).entry?_eq_some (hafter.run.entries_subset hmem)

theorem first?_of_new (h : e.arrivals place = log ++ a :: log') (hid : a.encounter.element.HasId)
    (hnew : a.survey.entry? a.encounter.id = none) :
    e.first? place a.encounter.id = some a.encounter := by
  obtain ⟨rest, -, hafter⟩ := exists_trace_at h
  rcases Relation.ReflTransGen.cases_head hafter.run with heq | ⟨v, hstep, hrun⟩
  · cases heq
  · have hmem : a.encounter ∈ v.survey.entries := by
      rw [(hstep.of_arrival rfl).2]
      exact Survey.mem_entries_meet.2 (.inr ⟨rfl, hid, hnew⟩)
    exact (reachable_survey e place).entry?_eq_some (Run.entries_subset hrun hmem)

/-- An arrival with an ID is the first one, or it is compared with the first one. -/
theorem recurrence?_of_first (h : e.arrivals place = log ++ a :: log')
    (hid : a.encounter.element.HasId) (hfirst : e.first? place a.encounter.id = some x) :
    a.recurrence? = none ∧ x = a.encounter ∨
      a.recurrence? = some (a.survey.recurrence x a.encounter) := by
  cases hentry : a.survey.entry? a.encounter.id with
  | none =>
    have hlast := first?_of_new h hid hentry
    exact .inl ⟨Arrival.recurrence?_eq_none.2 fun _ => hentry,
      Option.some.inj (hfirst.symm.trans hlast)⟩
  | some first =>
    obtain rfl := Option.some.inj (hfirst.symm.trans (first?_of_arrival h hentry))
    exact .inr (Arrival.recurrence?_eq_some.2 ⟨x, hid, hentry, rfl⟩)

/-- After an arrival with an ID every other one with that ID is compared with the first one. -/
theorem recurrence?_of_later (h : e.arrivals place = log ++ b :: log') (ha : a ∈ log)
    (hid : a.encounter.element.HasId) (hsame : b.encounter.id = a.encounter.id)
    (hfirst : e.first? place b.encounter.id = some x) :
    b.recurrence? = some (b.survey.recurrence x b.encounter) := by
  have hbid : b.encounter.element.HasId := (Encounter.hasId_congr hsame).2 hid
  refine (recurrence?_of_first h hbid hfirst).resolve_left ?_
  rintro ⟨hnone, -⟩
  -- the earlier arrival has left an entry with the ID
  obtain ⟨rest, hreach⟩ := reachable_at h
  obtain ⟨first, hmem, hfid, -⟩ := hreach.accounted (List.mem_map_of_mem ha) hid
  have hfree := Survey.entry?_eq_none.1 (Arrival.recurrence?_eq_none.1 hnone hbid)
  exact hfree first hmem (hfid.trans hsame.symm)

end Walk

namespace Element

variable {e : Element} {place : Locator} {x : Encounter} {a b : Arrival}

theorem encounters_subset_tree : e.encounters place ⊆ (Encounter.ofRoot e place).tree :=
  (Walk.reachable_survey e place).met_subset

theorem arrival_eq_of_place_eq (ha : a ∈ e.arrivals place) (hb : b ∈ e.arrivals place)
    (h : a.encounter.place = b.encounter.place) : a = b := by
  have hsub := (List.sublist_append_left _ _).trans (Walk.reachable_survey e place).sublist
  have hnodup : (e.encounters place).Nodup := (Encounter.nodup_tree _).sublist hsub
  refine List.inj_on_of_nodup_map hnodup ha hb ?_
  exact Encounter.eq_of_place_eq (encounters_subset_tree (List.mem_map_of_mem ha))
    (encounters_subset_tree (List.mem_map_of_mem hb)) h

theorem exists_first (hx : x ∈ e.encounters place) (hid : x.element.HasId) :
    ∃ first ∈ e.encounters place, e.first? place x.id = some first ∧ first.id = x.id := by
  have hreach := Walk.reachable_survey e place
  obtain ⟨first, hfirst, hfid, -⟩ := hreach.accounted hx hid
  exact ⟨first, hreach.entries_subset hfirst, hfid ▸ hreach.entry?_eq_some hfirst, hfid⟩

end Element

end Statechart
