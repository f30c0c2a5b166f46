import Mathlib
import Statechart.Model.Build
import Statechart.Proofs.Integrity.Checks
import Statechart.Proofs.Reading.Mirror
import Statechart.Proofs.Reading.Written
import Statechart.Validation

/-! The examination of a machine that was written and read again. The rules see no difference, nor
do the checks on the finished survey. The survey itself does where a machine was shared: each place
but the first then holds a machine of its own, with an ID that is taken. -/

namespace Statechart

/-- Lists whose members produce the same, pair by pair. -/
theorem flatMap_eq_of_forall₂ {α β γ : Type} {R : α → β → Prop} {f : α → List γ} {g : β → List γ}
    {l : List α} {l' : List β} (hl : List.Forall₂ R l l')
    (h : ∀ a ∈ l, ∀ b, R a b → f a = g b) : l.flatMap f = l'.flatMap g := by
  induction hl with
  | nil => rfl
  | @cons a b l l' hab hl ih =>
    rw [List.flatMap_cons, List.flatMap_cons, h a (.head _) b hab,
      ih fun x hx => h x (.tail _ hx)]

/-! ### The checks on the survey -/

namespace Survey

variable {e : Element} {s s' : Survey} {limit : ℕ} {d : Located Defect}

theorem isDuplicate_of_mem_checkDefects (h : d ∈ s.checkDefects limit) :
    d.cause.isDuplicate = false := by
  have hstage : d.cause.stage ≠ .walk := by
    simp only [checkDefects, List.mem_append] at h
    rcases h with ((h | h) | h) | h
    · rw [stage_of_mem_referenceDefects h]
      decide
    · rw [stage_of_mem_associationDefects h]
      decide
    · rw [stage_of_mem_relationDefects h]
      decide
    · rw [stage_of_mem_relationDefects h]
      decide
  cases hcause : d.cause with
  | duplicateId id type place => exact absurd (by rw [hcause]; rfl) hstage
  | _ => rfl

/-- The checks see no difference between a model and its copy. -/
theorem IsCopy.sameRecord (h : s.IsCopy e s') : s.SameRecord s' where
  headings id := by
    unfold heading?
    rw [h.entry?]
    cases s.entry? id <;> simp
  references := h.references
  edges r := by cases r <;> simp only [Survey.edges, h.containment, h.standIn]
  association := h.association

end Survey

/-! ### Duplicates of shared machines -/

namespace Element

/-- A duplicate that names two places of one shared machine. -/
def isRepeat (e : Element) (d : Located Defect) : Bool :=
  match d.cause with
  | .duplicateId _ _ place =>
    place ≠ d.place && (e.sharedAt? place).any fun n => e.sharedAt? d.place = some n
  | _ => false

/-- The first encounter with the ID was with the same shared machine elsewhere. -/
def isRevisit (e : Element) (x : Encounter) : Bool :=
  (e.first? [] x.id).any fun first => first.place ≠ x.place && first.sharesWith x

variable {e : Element} {d : Located Defect} {x first : Encounter}

theorem isRevisit_of_blank (h : ¬ x.element.HasId) : e.isRevisit x = false := by
  unfold isRevisit
  cases hfirst : e.first? [] x.id with
  | none => rfl
  | some first =>
    -- what is recorded has an ID
    obtain ⟨hmem, hfid⟩ := Survey.entry?_eq_some hfirst
    have hid := (Walk.reachable_survey e []).entries.1 first hmem
    exact absurd ((Encounter.hasId_congr hfid).1 hid) h

theorem isDuplicate_of_isRepeat (h : e.isRepeat d = true) : d.cause.isDuplicate = true := by
  unfold isRepeat at h
  split at h
  · next hcause => rw [hcause]; rfl
  · cases h

theorem isRepeat_duplicateId (hfirst : first ∈ (Encounter.ofRoot e []).tree)
    (hx : x ∈ (Encounter.ofRoot e []).tree) (hplace : first.place ≠ x.place) (type : EntityType)
    (id : String) (firstType : EntityType) :
    e.isRepeat ⟨type, x.place, .duplicateId id firstType first.place⟩ = first.sharesWith x := by
  simp [isRepeat, hplace, Encounter.sharedAt?_place hfirst, Encounter.sharedAt?_place hx,
    Encounter.sharesWith]

theorem HoldsOnce.isRepeat (h : e.HoldsOnce) (d : Located Defect) : e.isRepeat d = false := by
  rw [Bool.eq_false_iff]
  intro hrepeat
  unfold Element.isRepeat at hrepeat
  split at hrepeat
  · next first _ =>
    simp only [Bool.and_eq_true, decide_eq_true_eq, Option.any_eq_true] at hrepeat
    obtain ⟨hne, n, hfirst, hplace⟩ := hrepeat
    exact hne (h first d.place n hfirst hplace)
  · cases hrepeat

end Element

namespace Arrival

variable {e : Element} {a a' : Arrival} {log log' : List Arrival}

/-- What is no duplicate is reported at both arrivals. -/
theorem IsCopy.filter_defects (h : a.IsCopy e a') :
    a'.defects.filter (!·.cause.isDuplicate) = a.defects.filter (!·.cause.isDuplicate) := by
  unfold defects
  rw [h.encounter, Encounter.knownId?_copy]
  split
  · simp
  · next id _ =>
    rw [h.survey.entry?]
    cases a.survey.entry? id with
    | none => rfl
    | some first =>
      simp only [Option.map_some]
      split <;> split <;> simp [Defect.isDuplicate]

/-- Where the walk comes to a shared machine again, its copy is reported. Elsewhere the copy is
reported as the element is. -/
theorem IsCopy.defects (h : a.IsCopy e a') (he : e.Coherent) (hnames : e.NamesShared)
    (hsplit : e.arrivals [] = log ++ a :: log') :
    e.isRevisit a.encounter = false ∧ a'.defects = a.defects ∧
        (∀ d ∈ a'.defects, e.isRepeat d = false) ∨
      e.isRevisit a.encounter = true ∧ a.defects = [] ∧
        ∃ d, a'.defects = [d] ∧ d.place = a.encounter.place ∧ e.isRepeat d = true := by
  obtain ⟨x, s⟩ := a
  obtain ⟨x', s'⟩ := a'
  obtain ⟨rfl, hcopy⟩ : x' = x.copy ∧ s.IsCopy e s' := ⟨h.encounter, h.survey⟩
  obtain ⟨rest, hreach⟩ := Walk.reachable_at hsplit
  by_cases hid : x.element.HasId
  · cases hentry : s.entry? x.id with
    | none =>
      have hentry' := hcopy.entry?_of_new hentry
      refine .inl ⟨?_, ?_, ?_⟩
      · simp [Element.isRevisit, Walk.first?_of_new hsplit hid hentry]
      · rw [defects_of_new hid hentry, defects_of_new (Encounter.hasId_copy.2 hid) hentry']
      · simp [defects_of_new (Encounter.hasId_copy.2 hid) hentry']
    | some first =>
      have hentry' := hcopy.entry?_of_entry hentry
      have hmem := (Survey.entry?_eq_some hentry).1
      obtain ⟨hplace, hcases⟩ := hreach.recurrence_copy he hnames hcopy hmem
      have hrepeat := Element.isRepeat_duplicateId
        (hreach.met_subset (hreach.entries_subset hmem)) hreach.next_mem hplace
      have hrevisit : e.isRevisit x = first.sharesWith x := by
        simp [Element.isRevisit, Walk.first?_of_arrival hsplit hentry, hplace]
      rw [hrevisit, defects_of_entry hid hentry,
        defects_of_entry (Encounter.hasId_copy.2 hid) hentry']
      rcases hcases with ⟨hshares, hr⟩ | ⟨hshares, hsame, hr⟩
      · refine .inl ⟨hshares, ?_, ?_⟩
        · simp [hr]
        · split
          · simp [hrepeat, hshares]
          · simp
      · refine .inr ⟨hshares, by simp [hsame], _, by rw [if_pos hr], rfl, ?_⟩
        simp [hrepeat, hshares]
  · refine .inl ⟨Element.isRevisit_of_blank hid, ?_, ?_⟩
    · rw [defects_of_blank hid, defects_of_blank (Encounter.hasId_copy.not.2 hid)]
      simp
    · simp [defects_of_blank (Encounter.hasId_copy.not.2 hid), Element.isRepeat]

end Arrival

namespace Element

variable {e : Element} {d : Located Defect}

theorem filter_defects_survey_copy (e : Element) :
    (e.copy.survey []).defects.filter (!·.cause.isDuplicate) =
      (e.survey []).defects.filter (!·.cause.isDuplicate) := by
  rw [Walk.survey_defects, Walk.survey_defects, List.filter_flatMap, List.filter_flatMap]
  exact (flatMap_eq_of_forall₂ e.survey_copy.2 fun a _ a' h => h.filter_defects.symm).symm

theorem survey_defects_eq (he : e.Coherent) (hnames : e.NamesShared) :
    (e.survey []).defects = (e.copy.survey []).defects.filter (!e.isRepeat ·) := by
  rw [Walk.survey_defects, Walk.survey_defects, List.filter_flatMap]
  refine flatMap_eq_of_forall₂ e.survey_copy.2 fun a ha a' h => ?_
  obtain ⟨log, log', hsplit⟩ := List.append_of_mem ha
  rcases h.defects he hnames hsplit with ⟨-, heq, hd⟩ | ⟨-, heq, d, hd, -, hrepeat⟩
  · rw [← heq, List.filter_eq_self.2 fun d hmem => by simp [hd d hmem]]
  · simp [heq, hd, hrepeat]

/-- The copy has a duplicate to report wherever the walk comes to a shared machine again. -/
theorem places_of_repeats (he : e.Coherent) (hnames : e.NamesShared) :
    ((e.copy.survey []).defects.filter e.isRepeat).map (·.place) =
      ((e.encounters []).filter e.isRevisit).map (·.place) := by
  rw [Walk.survey_defects, encounters, List.map_eq_flatMap (l := e.arrivals [])]
  simp only [List.filter_flatMap, List.map_flatMap]
  refine (flatMap_eq_of_forall₂ e.survey_copy.2 fun a ha a' h => ?_).symm
  obtain ⟨log, log', hsplit⟩ := List.append_of_mem ha
  rcases h.defects he hnames hsplit with ⟨hrevisit, -, hd⟩ | ⟨hrevisit, -, d, hd, hplace, hrepeat⟩
  · simpa [hrevisit] using hd
  · simp [hrevisit, hd, hrepeat, hplace]

theorem isRepeat_of_mem_checkDefects {s : Survey} {limit : ℕ} (h : d ∈ s.checkDefects limit) :
    e.isRepeat d = false := by
  rw [Bool.eq_false_iff]
  intro hrepeat
  have hduplicate := Survey.isDuplicate_of_mem_checkDefects h
  rw [isDuplicate_of_isRepeat hrepeat] at hduplicate
  cases hduplicate

theorem integrityDefects_copy_eq_append (e : Element) (options : Options) :
    e.copy.integrityDefects options [] =
      (e.copy.survey []).defects ++ (e.survey []).checkDefects options.maxCycleDepth := by
  rw [integrityDefects_eq_append, e.survey_copy.1.sameRecord.checkDefects]

theorem filter_integrityDefects_copy (e : Element) (options : Options) :
    (e.copy.integrityDefects options []).filter (!·.cause.isDuplicate) =
      (e.integrityDefects options []).filter (!·.cause.isDuplicate) := by
  rw [integrityDefects_copy_eq_append, integrityDefects_eq_append, List.filter_append,
    List.filter_append, filter_defects_survey_copy]

/-- The copy has all defects of the original, and repeats besides. -/
theorem integrityDefects_eq_filter (he : e.Coherent) (hnames : e.NamesShared)
    (options : Options) :
    e.integrityDefects options [] =
      (e.copy.integrityDefects options []).filter (!e.isRepeat ·) := by
  have hchecks : ((e.survey []).checkDefects options.maxCycleDepth).filter (!e.isRepeat ·) =
      (e.survey []).checkDefects options.maxCycleDepth :=
    List.filter_eq_self.2 fun d hd => by rw [isRepeat_of_mem_checkDefects hd]; rfl
  rw [integrityDefects_copy_eq_append, List.filter_append, hchecks, ← survey_defects_eq he hnames,
    integrityDefects_eq_append]

theorem places_of_repeats_integrityDefects (he : e.Coherent) (hnames : e.NamesShared)
    (options : Options) :
    ((e.copy.integrityDefects options []).filter e.isRepeat).map (·.place) =
      ((e.encounters []).filter e.isRevisit).map (·.place) := by
  have hchecks : ((e.survey []).checkDefects options.maxCycleDepth).filter e.isRepeat = [] :=
    List.filter_eq_nil_iff.2 fun d hd => by simp [isRepeat_of_mem_checkDefects hd]
  rw [integrityDefects_copy_eq_append, List.filter_append, hchecks, List.append_nil,
    places_of_repeats he hnames]

end Element

/-! ### Rules -/

mutual

theorem Region.sameOutside_copy (r : Region) : r.SameOutside r.copy := by
  rw [r.copy_eq]
  refine .mk (List.forall₂_map_right_iff.2 (List.forall₂_same.2 fun s hs => ?_))
  exact s.sameOutside_copy
termination_by sizeOf r
decreasing_by
  cases r
  have := List.sizeOf_lt_of_mem hs
  simp_all
  omega

theorem State.sameOutside_copy (s : State) : s.SameOutside s.copy := by
  rw [s.copy_eq]
  refine .mk (List.forall₂_map_right_iff.2 (List.forall₂_same.2 fun r hr => ?_)) ?_
  · exact r.sameOutside_copy
  · cases s.submachine with
    | none => exact .none
    | some m => exact .some ⟨by simp [m.copy_eq], fun id => by simp [m.copy_eq]⟩
termination_by sizeOf s
decreasing_by
  cases s
  have := List.sizeOf_lt_of_mem hr
  simp_all
  omega

end

theorem StateMachine.breaches_copy (m : StateMachine) (c : Context) :
    m.copy.breaches c = m.breaches c := by
  rw [m.copy_eq]
  refine StateMachine.breaches_sameOutside (List.forall₂_map_right_iff.2 ?_) c
  exact List.forall₂_same.2 fun r _ => r.sameOutside_copy

/-- A machine without stray tags that is written and read again. The rules find what they found, and
so do the integrity checks except for duplicate IDs. If no shared machine is held at more than one
place, all findings are the same. If every machine held at several places has an ID, the findings
differ in one thing: a duplicate is reported wherever a walk over the original comes to a shared
machine again. -/
theorem StateMachine.validate_reloaded (m : StateMachine) (options : Options)
    (h : (Element.stateMachine m).HasTags) :
    ∃ m', ofJson? m.toJson = some m' ∧
      m'.ruleFindings { options } = m.ruleFindings { options } ∧
      let e := Element.stateMachine m
      let defects := e.integrityDefects options []
      let defects' := (Element.stateMachine m').integrityDefects options []
      defects'.filter (!·.cause.isDuplicate) = defects.filter (!·.cause.isDuplicate) ∧
      (e.HoldsOnce → m'.validate options = m.validate options) ∧
      (e.Coherent → e.NamesShared →
        defects = defects'.filter (!e.isRepeat ·) ∧
        (defects'.filter e.isRepeat).map (·.place) =
          ((e.encounters []).filter e.isRevisit).map (·.place)) := by
  have hrules : m.copy.ruleFindings { options } = m.ruleFindings { options } :=
    congrArg Breaches.findings (m.breaches_copy { options })
  refine ⟨m.copy, m.ofJson?_toJson h, hrules,
    Element.filter_integrityDefects_copy (.stateMachine m) options, ?_, ?_⟩
  · intro honce
    have hdefects := Element.integrityDefects_eq_filter honce.coherent honce.namesShared options
    rw [List.filter_eq_self.2 fun d _ => by simp [honce.isRepeat d]] at hdefects
    rw [validate, hrules, validate, hdefects]
    rfl
  · intro he hnames
    exact ⟨Element.integrityDefects_eq_filter he hnames options,
      Element.places_of_repeats_integrityDefects he hnames options⟩

def office (shared : Option ℕ) : StateMachine := { id := "n", regions := [{ id := "q" }], shared }

/-- A machine with a state for each ID, all of which stand for one machine. -/
def branches (x : StateMachine) (ids : List String) : StateMachine where
  id := "m"
  regions :=
    [ids.foldl (fun r id => r.addState ((State.simple id "").setSubmachine x)) { id := "r" }]

/-- With one state nothing changes. With two the second machine is a duplicate of the first. -/
theorem branches_reloaded :
    (∃ m', StateMachine.ofJson? (branches (office (some 0)) ["a"]).toJson = some m' ∧
      m'.validate {} = []) ∧
    ∃ m', StateMachine.ofJson? (branches (office (some 0)) ["a", "b"]).toJson = some m' ∧
      ((Element.stateMachine m').integrityDefects {} []).map (·.place) =
        [[.item "Regions" 0, .item "States" 1, .field "Submachine"]] := by
  constructor
  · let m := branches (office (some 0)) ["a"]
    have htags : (Element.stateMachine m).HasTags := Element.hasTags_of_tree (by cbv)
    have htree : (((Encounter.ofRoot (.stateMachine m) []).tree.filter
        (·.element.definition?.isSome)).map (·.element.definition?)) = [some 0] := by cbv
    have honce : (Element.stateMachine m).HoldsOnce :=
      Element.holdsOnce_of_tree (htree ▸ List.nodup_singleton _)
    have hvalid : m.validate {} = [] := by cbv
    obtain ⟨m', hm', -, -, hsame, -⟩ := m.validate_reloaded {} htags
    exact ⟨m', hm', (hsame honce).trans hvalid⟩
  · let m := branches (office (some 0)) ["a", "b"]
    have htags : (Element.stateMachine m).HasTags := Element.hasTags_of_tree (by cbv)
    have hnames : (Element.stateMachine m).NamesShared := Element.namesShared_of_tree (by cbv)
    have hlink : (Element.stateMachine (branches { id := "@0" } ["a", "b"])).link
        (Sharing.define [office none]) = .stateMachine m := by cbv
    have hcoherent : (Element.stateMachine m).Coherent := by
      rw [← hlink]
      apply Element.coherent_link
      · intro x hx
        obtain rfl := List.mem_singleton.1 hx
        exact Element.unshared_of_tree (by cbv)
      · exact Element.unshared_of_tree (by cbv)
    have hclean : (Element.stateMachine m).integrityDefects {} [] = [] := by cbv
    have hrevisits : (((Element.stateMachine m).encounters []).filter
        (Element.stateMachine m).isRevisit).map (·.place) =
          [[.item "Regions" 0, .item "States" 1, .field "Submachine"]] := by cbv
    obtain ⟨m', hm', -, -, -, hrepeats⟩ := m.validate_reloaded {} htags
    obtain ⟨hdefects, hplaces⟩ := hrepeats hcoherent hnames
    refine ⟨m', hm', ?_⟩
    -- the original has no defect, so all that is reported is a repeat
    rw [hclean, eq_comm, List.filter_eq_nil_iff] at hdefects
    rw [List.filter_eq_self.2 fun d hd => by simpa using hdefects d hd] at hplaces
    exact hplaces.trans hrevisits

/-- What is shared is lost on the way: a valid machine comes back with a finding. -/
theorem branches_not_reloaded :
    let m := branches (office (some 0)) ["a", "b"]
    (Element.stateMachine m).HasTags ∧ m.validate {} = [] ∧
      ∃ m', StateMachine.ofJson? m.toJson = some m' ∧ (m'.validate {}).map (·.message) =
        ["duplicate ID 'n': already used by StateMachine at Regions[0].States[0].Submachine"] := by
  intro m
  have htags : (Element.stateMachine m).HasTags := Element.hasTags_of_tree (by cbv)
  have hcopy : m.copy = branches (office none) ["a", "b"] := by cbv
  have hrules : (branches (office none) ["a", "b"]).ruleFindings {} = [] := by cbv
  have hdefects : (Element.stateMachine (branches (office none) ["a", "b"])).integrityDefects
      {} [] = [⟨.stateMachine, [.item "Regions" 0, .item "States" 1, .field "Submachine"],
        .duplicateId "n" .stateMachine
          [.item "Regions" 0, .item "States" 0, .field "Submachine"]⟩] := by cbv
  refine ⟨htags, by cbv, _, hcopy ▸ m.ofJson?_toJson htags, ?_⟩
  rw [StateMachine.validate, hrules, hdefects]
  decide +kernel

end Statechart
