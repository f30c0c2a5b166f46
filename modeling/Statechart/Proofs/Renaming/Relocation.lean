import Statechart.Proofs.Location.Filter
import Statechart.Proofs.Renaming.Equivariance
import Statechart.Proofs.Survey.Arrival

/-! Examinations below a path. What is reported of an element does not depend on the place that the
examination starts at, except for the paths: they all lie below the path of that place. A duplicate
names a second place, that of the first use of its ID, which lies below the same path. -/

namespace Statechart

theorem Findings.isUnder_join (p q : String) : isUnder (Locator.join p q) p = true := by
  by_cases hp : p = ""
  · simp [isUnder, hp]
  rw [isUnder_iff hp, Locator.join, if_neg hp]
  by_cases hq : q = ""
  · exact ⟨[], by simp [hq], .inl rfl⟩
  · exact ⟨'.' :: q.toList, by simp [hq, String.toList_append], .inr (.inl rfl)⟩

/-- The finding with its path below another one. -/
def Finding.below (p : String) (x : Finding) : Finding := { x with path := Locator.join p x.path }

/-- The message with the place that it names below a path. -/
def Defect.messageBelow (p : String) (type : EntityType) : Defect → String
  | duplicateId id first place =>
    s!"duplicate ID '{id}': already used by {first.text} at "
      ++ Locator.label (Locator.join p place.text)
  | d => d.message type

/-- The finding below a path, where its message names the places. -/
def Located.findingBelow (p : String) (d : Located Defect) : Finding :=
  { d.finding.below p with message := d.cause.messageBelow p d.type }

theorem Defect.message_recast {base : Locator} {type : EntityType} {d : Defect}
    (h : ∀ id first place, d = .duplicateId id first place →
      (base ++ place).text = Locator.join base.text place.text) :
    (d.recast .refl base).message type = d.messageBelow base.text type := by
  have hnodes (nodes : List String) : nodes.map Renaming.refl = nodes := List.map_id nodes
  cases d with
  | duplicateId id first place =>
    unfold messageBelow
    dsimp only
    rw [← h id first place rfl]
    rfl
  | cycle relation nodes =>
    simp only [recast, hnodes]
    rfl
  | tooDeep relation id limit path =>
    simp only [recast, hnodes]
    rfl
  | _ => rfl

theorem Element.exists_first_place {e : Element} {place : Locator} {d : Located Defect}
    (hd : d ∈ (e.survey place).defects) {id : String} {type : EntityType} {first : Locator}
    (hcause : d.cause = .duplicateId id type first) :
    ∃ x ∈ (Encounter.ofRoot e place).tree, first = x.place := by
  obtain ⟨a, ha, hda⟩ := Walk.mem_survey_defects.1 hd
  obtain ⟨-, -, ⟨-, hnoId⟩ | ⟨y, -, hy, -, hdup⟩⟩ := Arrival.mem_defects.1 hda
  · cases hcause.symm.trans hnoId
  · cases hcause.symm.trans hdup
    obtain ⟨log, log', hlog⟩ := List.append_of_mem ha
    have hfirst := Walk.first?_of_arrival hlog hy
    have hreach := Walk.reachable_survey e place
    exact ⟨y, hreach.met_subset (hreach.entries_subset (Survey.entry?_eq_some hfirst).1), rfl⟩

theorem Element.finding_recast {e : Element} {options : Options} (base : Locator)
    {d : Located Defect} (hd : d ∈ e.integrityDefects options []) :
    (d.recast base (Defect.recast .refl base)).finding = d.findingBelow base.text := by
  have hplain (x : Encounter) (hx : x ∈ (Encounter.ofRoot e []).tree) :
      (base ++ x.place).text = Locator.join base.text x.place.text :=
    Locator.text_append base (Encounter.isPlain_place hx)
  obtain ⟨x, hx, -, hplace⟩ := has_integrityDefects d hd
  have hpath : (base ++ d.place).text = Locator.join base.text d.place.text := by
    rw [hplace]
    exact hplain x hx
  obtain ⟨hkind, hfield⟩ := d.cause.recast_heading .refl base
  -- of all defects only a duplicate names a place, one where an element is met
  have hmessage : (d.cause.recast .refl base).message d.type =
      d.cause.messageBelow base.text d.type := by
    apply Defect.message_recast
    intro id first place hcause
    have hmem : d ∈ (e.survey []).defects := by
      rw [mem_integrityDefects_iff_stage, hcause] at hd
      exact hd
    obtain ⟨y, hy, rfl⟩ := exists_first_place hmem hcause
    exact hplain y hy
  simp only [Located.finding, Located.findingBelow, Finding.below, Located.recast, Cause.kind,
    Cause.field, Cause.message, hkind, hfield, hmessage, hpath]

/-- The defects at a place are those at none, moved there. -/
theorem Element.integrityDefects_below (e : Element) (options : Options) (place : Locator) :
    e.integrityDefects options place =
      (e.integrityDefects options []).map (Renaming.refl.recast place).located := by
  have hrecast := (Renaming.refl.recast place).integrityDefects_element e options []
  have helement : (Renaming.refl.recast place).element e = e := e.rename_refl
  rw [helement] at hrecast
  rwa [show (Renaming.refl.recast place).base = place from rfl, List.append_nil] at hrecast

theorem Element.integrityFindings_below (e : Element) (options : Options) (place : Locator) :
    (e.integrityDefects options place).findings =
      (e.integrityDefects options []).map (·.findingBelow place.text) := by
  rw [e.integrityDefects_below, Defects.findings, List.map_map]
  exact List.map_congr_left fun d hd => finding_recast place hd

theorem Entity.ruleFindings_below (x : Entity) {c c' : Context} (hmachine : c'.machine = c.machine)
    (hregion : c'.region = c.region) (hoptions : c'.options = c.options) (hpath : c.path = "") :
    (x.breaches c').findings = (x.breaches c).findings.map (·.below c'.path) := by
  have hown : x.breaches c = (x.breaches { c with place := [] }).map (Located.recast c.place id) :=
    x.breaches_at ⟨rfl, rfl, rfl⟩
  have halike : c.Alike c' := ⟨by rw [hmachine], by rw [hregion], by rw [hoptions]⟩
  rw [x.breaches_at halike, hown]
  simp only [Breaches.findings, List.map_map]
  apply List.map_congr_left
  intro d hd
  obtain ⟨l, y, hl, hplace, -⟩ := x.locates_breaches { c with place := [] } d hd
  rw [List.nil_append] at hplace
  have hplain : ∀ s ∈ d.place, s.IsPlain := hplace ▸ isPlain_of_leads hl
  have hbelow : (c'.place ++ d.place).text =
      Locator.join c'.path (c.place ++ d.place).text := by
    rw [Locator.text_append _ hplain, Locator.text_append_of_empty hpath]
    rfl
  simp only [Function.comp_apply, Located.finding, Located.recast, Finding.below, id_eq, hbelow]

/-- Relocation. The integrity check at a place reports what it reports at none, and the rules in a
context report what they report in one without a path that has the machine, the region and the
options in common with it, each time below the path of the place. So nothing that is reported is
outside that path. -/
theorem findings_relocated :
    (∀ (e : Element) (options : Options) (place : Locator),
      (e.integrityDefects options place).findings =
        (e.integrityDefects options []).map (·.findingBelow place.text)) ∧
    (∀ (x : Entity) (c c' : Context), c'.machine = c.machine → c'.region = c.region →
      c'.options = c.options → c.path = "" →
        (x.breaches c').findings = (x.breaches c).findings.map (·.below c'.path)) ∧
    (∀ (e : Element) (options : Options) (place : Locator),
      (e.integrityDefects options place).findings.under place.text =
        (e.integrityDefects options place).findings) ∧
    ∀ (x : Entity) (c : Context),
      (x.breaches c).findings.under c.path = (x.breaches c).findings := by
  have rules (x : Entity) (c c' : Context) (hmachine : c'.machine = c.machine)
      (hregion : c'.region = c.region) (hoptions : c'.options = c.options) (hpath : c.path = "") :=
    x.ruleFindings_below hmachine hregion hoptions hpath
  refine ⟨Element.integrityFindings_below, rules, ?_, ?_⟩
  · intro e options place
    apply List.filter_eq_self.2
    intro finding hfinding
    rw [e.integrityFindings_below options place] at hfinding
    obtain ⟨d, -, rfl⟩ := List.mem_map.1 hfinding
    exact Findings.isUnder_join _ _
  · intro x c
    apply List.filter_eq_self.2
    intro finding hfinding
    rw [rules x { c with place := [] } c rfl rfl rfl rfl] at hfinding
    obtain ⟨d, -, rfl⟩ := List.mem_map.1 hfinding
    exact Findings.isUnder_join _ _

/-- A region in which a state has the ID of the region. -/
def Region.shadow : Region where
  id := "r"
  states := [{ id := "r", type := .state }]

/-- The path of a place may start with a field without a name, which leaves no trace in it. -/
theorem shadow_relocated :
    ((Element.region .shadow).integrityDefects {} [.field "", .item "Regions" 2]).findings.head?.map
        (fun x => (x.path, x.message)) =
      some ("Regions[2].States[0]", "duplicate ID 'r': already used by Region at Regions[2]") ∧
    ((Entity.element (.region .shadow)).breaches
        { place := [.field "", .item "Regions" 2] }).findings.map (·.path) = ["Regions[2]"] := by
  obtain ⟨hintegrity, hrules, -, -⟩ := findings_relocated
  constructor
  · rw [hintegrity]
    decide +kernel
  · rw [hrules _ {} { place := [.field "", .item "Regions" 2] } rfl rfl rfl rfl]
    decide +kernel

end Statechart
