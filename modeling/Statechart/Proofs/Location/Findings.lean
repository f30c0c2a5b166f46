import Mathlib
import Statechart.Model.Build
import Statechart.Proofs.Integrity.Stage
import Statechart.Proofs.Location.Rules
import Statechart.Proofs.Survey.Kinds
import Statechart.Validation

/-! Every finding stands where its path says. The rules locate what they report by construction; the
survey remembers the places of what it met, and the checks on the finished survey find the place of
an element by its ID, which is known whenever they report on it. -/

namespace Statechart

/-- Whether a defect is of an element that a walk from the root may meet. -/
def Encounter.HasDefect (root : Encounter) (d : Located Defect) : Prop :=
  ∃ x ∈ root.tree, d.type = x.type ∧ d.place = x.place

namespace Walk

variable {e : Element} {place : Locator} {w : Walk}

theorem Reachable.association_symm (h : Reachable e place w) :
    ∀ a b, (a, b) ∈ w.survey.association.edges → (b, a) ∈ w.survey.association.edges := by
  refine h.survey_induction (P := fun s => ∀ a b, (a, b) ∈ s.association.edges →
    (b, a) ∈ s.association.edges) nofun (by simp) ?_ ?_
  · intro x p rest met s _ ih a b hab
    rw [Survey.mem_association_link] at hab ⊢
    rcases hab with hab | ⟨hrole, hx, hp, hab⟩
    · exact .inl (ih a b hab)
    · refine .inr ⟨hrole, hx, hp, ?_⟩
      rcases hab with hab | hab <;> cases hab
      · exact .inr rfl
      · exact .inl rfl
  · intro x rest met s _ ih a b hab
    by_cases htype : ∃ t, x.element = .transition t
    · obtain ⟨t, ht⟩ := htype
      rw [Survey.mem_association_settle ht] at hab ⊢
      rcases hab with hab | ⟨u, v, hu, hv, hid, hid', hab⟩
      · exact .inl (ih a b hab)
      · refine .inr ⟨u, v, hu, hv, hid, hid', ?_⟩
        rcases hab with hab | hab <;> cases hab
        · exact .inr rfl
        · exact .inl rfl
    · rw [Survey.association_settle fun t ht => htype ⟨t, ht⟩] at hab ⊢
      exact ih a b hab

theorem Reachable.has_defectAt (h : Reachable e place w) {x : Encounter} {id : String}
    (hx : w.survey.entry? id = some x) (cause : Defect) :
    (Encounter.ofRoot e place).HasDefect (w.survey.defectAt id cause) := by
  refine ⟨x, h.met_subset (h.entries_subset (Survey.entry?_eq_some hx).1), ?_⟩
  simp [Survey.defectAt, hx]

theorem Reachable.has_referenceDefects (h : Reachable e place w) :
    ∀ d ∈ w.survey.referenceDefects, (Encounter.ofRoot e place).HasDefect d := by
  intro d hd
  obtain ⟨r, hr, hdtype, hdplace, -⟩ := Survey.mem_referenceDefects hd
  obtain ⟨x, hx, hxr⟩ := h.references r hr
  obtain ⟨htype, hplace⟩ : r.type = x.type ∧ r.place = x.place := by
    rcases hxr with hxr | ⟨p, -, rfl⟩
    · exact Encounter.located_of_mem_ownReferences hxr
    · exact ⟨rfl, rfl⟩
  exact ⟨x, h.met_subset hx, hdtype.trans htype, hdplace.trans hplace⟩

theorem Reachable.has_associationDefects (h : Reachable e place w) :
    ∀ d ∈ w.survey.associationDefects, (Encounter.ofRoot e place).HasDefect d := by
  intro d hd
  obtain ⟨a, b, hab, ⟨hback, -⟩ | ⟨x, y, hx, -, -, rfl⟩⟩ := Survey.mem_associationDefects hd
  · exact absurd (h.association_symm a b hab) hback
  · exact h.has_defectAt hx _

/-- The edges of a relation start at recorded elements, so what is said of them has a place. -/
theorem Reachable.has_relationDefects (h : Reachable e place w) (limit : ℕ) (r : Relation) :
    ∀ d ∈ w.survey.relationDefects limit r, (Encounter.ofRoot e place).HasDefect d := by
  intro d hd
  obtain ⟨a, b, hab, hcases⟩ := Survey.mem_edgeDefects hd
  obtain ⟨x, hx, p, -, -, -, heq⟩ := h.edges hab
  obtain ⟨rfl, rfl⟩ := Prod.mk.inj heq
  have hentry := h.entry?_eq_some hx
  rcases hcases with hclash | ⟨path, -, rfl⟩ | ⟨path, -, rfl⟩
  · obtain ⟨y, z, hy, -, -, rfl⟩ := Survey.mem_clashDefects hclash
    exact h.has_defectAt hy _
  · exact h.has_defectAt hentry _
  · exact h.has_defectAt hentry _

end Walk

namespace Element

variable {e : Element} {options : Options} {place : Locator}

/-- Every defect is of an element that can be reached, at a place where it is met. -/
theorem has_integrityDefects :
    ∀ d ∈ e.integrityDefects options place, (Encounter.ofRoot e place).HasDefect d := by
  obtain ⟨met, hreach⟩ := Walk.survey_reachable e place
  intro d hd
  rcases mem_integrityDefects.1 hd with hd | hd | hd | ⟨r, hd⟩
  · obtain ⟨a, ha, hda⟩ := Walk.mem_survey_defects.1 hd
    obtain ⟨htype, hplace, -⟩ := Arrival.mem_defects.1 hda
    exact ⟨a.encounter, encounters_subset_tree (List.mem_map_of_mem ha), htype, hplace⟩
  · exact hreach.has_referenceDefects d hd
  · exact hreach.has_associationDefects d hd
  · exact hreach.has_relationDefects _ r d hd

theorem locates_integrityDefects :
    ∀ d ∈ e.integrityDefects options place, (Entity.element e).Locates place d := by
  intro d hd
  obtain ⟨x, hx, htype, hplace⟩ := has_integrityDefects d hd
  obtain ⟨way, hway, rfl⟩ := Encounter.mem_tree.1 hx
  have hleads : e.Leads way ((Encounter.ofRoot e place).along way).element := hway
  refine ⟨way.map (·.step), .element ((Encounter.ofRoot e place).along way).element,
    Entity.leads_of_way hleads, ?_, htype.symm⟩
  rw [hplace, Encounter.place_along]
  rfl

end Element

/-- Whether the path of a finding, read as navigation from the root, leads to something of the type
that the finding names. -/
def Finding.IsAt (f : Finding) (root : Entity) : Prop :=
  ∃ y, root.resolve f.path = some y ∧ y.type = f.type

theorem Entity.Locates.isAt {α : Type} [Cause α] {x : Entity} {place : Locator} {d : Located α}
    (h : x.Locates place d) (hplace : place.text = "") : d.finding.IsAt x := by
  obtain ⟨l, y, hl, hd, htype⟩ := h
  refine ⟨y, ?_, htype⟩
  have hpath : d.finding.path = l.text := by
    rw [show d.finding.path = d.place.text from rfl, hd, Locator.text_append_of_empty hplace]
  rw [hpath]
  exact resolve_of_leads hl

/-- Every finding of an examination that starts with an empty path is at the end of its path: the
findings of the rules, those of the integrity check, and so those of the two together. -/
theorem findings_isAt :
    (∀ (m : StateMachine) (options : Options),
      ∀ f ∈ m.validate options, f.IsAt (.element (.stateMachine m))) ∧
    (∀ (x : Entity) (c : Context), c.path = "" → ∀ f ∈ (x.breaches c).findings, f.IsAt x) ∧
    ∀ (e : Element) (options : Options) (place : Locator), place.text = "" →
      ∀ f ∈ (e.integrityDefects options place).findings, f.IsAt (.element e) := by
  have rules (x : Entity) (c : Context) (hc : c.path = "") :
      ∀ f ∈ (x.breaches c).findings, f.IsAt x := by
    intro f hf
    obtain ⟨d, hd, rfl⟩ := List.mem_map.1 hf
    exact (x.locates_breaches c d hd).isAt hc
  have integrity (e : Element) (options : Options) (place : Locator) (hplace : place.text = "") :
      ∀ f ∈ (e.integrityDefects options place).findings, f.IsAt (.element e) := by
    intro f hf
    obtain ⟨d, hd, rfl⟩ := List.mem_map.1 hf
    exact (Element.locates_integrityDefects d hd).isAt hplace
  refine ⟨?_, rules, integrity⟩
  intro m options f hf
  rcases List.mem_append.1 hf with hf | hf
  · exact rules (.element (.stateMachine m)) { options } rfl f hf
  · exact integrity (.stateMachine m) options [] rfl f hf

/-- A region with a guarded transition that goes nowhere; the guard says nothing. -/
def stub : Region where
  id := "r"
  states := [.simple "a" ""]
  vertices := [.vertex (State.simple "a" "").toVertex]
  transitions := [{
    id := "t"
    source := some (State.simple "a" "").toVertex
    guard := some { id := "g", specification := "" } }]

def stubMachine : StateMachine := { id := "m", regions := [stub] }

/-- The empty guard is found below the transition, whether the walk starts at the machine or at the
region, and the missing end at the transition. -/
theorem stub_findings :
    (∃ f ∈ stubMachine.validate {}, f.path = "Regions[0].Transitions[0].Guard" ∧
      f.type = .constraint ∧ f.IsAt (.element (.stateMachine stubMachine))) ∧
    (∃ f ∈ ((Entity.element (.region stub)).breaches {}).findings,
      f.path = "Transitions[0].Guard" ∧ f.type = .constraint ∧ f.IsAt (.element (.region stub))) ∧
    ∃ f ∈ Defects.findings ((Element.region stub).integrityDefects {} []),
      f.path = "Transitions[0]" ∧ f.type = .transition ∧ f.IsAt (.element (.region stub)) := by
  have pick {l : Findings} {i : ℕ} {path : String} {type : EntityType}
      (h : (l[i]?.map fun f => (f.path, f.type)) = some (path, type)) :
      ∃ f ∈ l, f.path = path ∧ f.type = type := by
    obtain ⟨f, hf, heq⟩ := Option.map_eq_some_iff.1 h
    exact ⟨f, List.mem_of_getElem? hf, (Prod.mk.inj heq).1, (Prod.mk.inj heq).2⟩
  have hmachine : ((stubMachine.validate {})[1]?.map fun f => (f.path, f.type)) =
      some ("Regions[0].Transitions[0].Guard", .constraint) := by decide +kernel
  have hregion : (((Entity.element (.region stub)).breaches {}).findings[1]?.map
      fun f => (f.path, f.type)) = some ("Transitions[0].Guard", .constraint) := by decide +kernel
  have hdefect : ((Element.region stub).integrityDefects {} []).map (fun d => (d.place, d.type)) =
      [([.item "Transitions" 0], .transition)] := by cbv
  obtain ⟨f, hf, hfpath, hftype⟩ := pick hmachine
  obtain ⟨g, hg, hgpath, hgtype⟩ := pick hregion
  obtain ⟨d, hd, heq⟩ : ∃ d ∈ (Element.region stub).integrityDefects {} [],
      (d.place, d.type) = ([.item "Transitions" 0], .transition) :=
    List.mem_map.1 (by rw [hdefect]; exact .head _)
  have hd := List.mem_map_of_mem (f := Located.finding) hd
  have hdpath : d.finding.path = "Transitions[0]" := by
    rw [show d.finding.path = d.place.text from rfl, (Prod.mk.inj heq).1]
    decide
  exact ⟨⟨f, hf, hfpath, hftype, findings_isAt.1 _ _ f hf⟩,
    ⟨g, hg, hgpath, hgtype, findings_isAt.2.1 _ _ rfl g hg⟩,
    ⟨_, hd, hdpath, (Prod.mk.inj heq).2, findings_isAt.2.2 _ _ _ rfl _ hd⟩⟩

end Statechart
