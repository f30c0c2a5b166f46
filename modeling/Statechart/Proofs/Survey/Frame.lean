import Statechart.Integrity.Check
import Statechart.Proofs.Survey.Tree

/-! What the operations of a survey change and what they leave alone. Only `meet` adds entries and
defects, only `link` adds edges between owners and parts, and an entry or an edge stays once it is
there. -/

namespace Statechart

namespace Digraph

variable {g : Digraph} {a b : String} {e : String × String}

theorem mem_edges_insert : e ∈ (g.insert a b).edges ↔ e ∈ g.edges ∨ e = (a, b) := by
  by_cases hab : (a, b) ∈ g.edges
  · rw [insert_of_mem hab]
    exact ⟨.inl, fun he => he.elim id fun heq => heq ▸ hab⟩
  · rw [insert_of_not_mem hab, edges_append, List.mem_append, List.mem_singleton]

theorem mem_edges_insertBoth :
    e ∈ (g.insertBoth a b).edges ↔ e ∈ g.edges ∨ e = (a, b) ∨ e = (b, a) := by
  unfold insertBoth
  rw [mem_edges_insert, mem_edges_insert, or_assoc]

end Digraph

/-- The relation that joins an element to a part in a role. -/
def Role.relation : Role → Relation
  | submachine => .submachine
  | member | machinePoint | referencePoint => .containment

namespace Encounter

variable {x : Encounter} {id : String}

theorem knownId?_eq_some : x.knownId? = some id ↔ x.element.HasId ∧ x.id = id := by
  unfold knownId?
  split <;> simp_all [Element.HasId, Encounter.id]

theorem knownId?_eq_none : x.knownId? = none ↔ ¬ x.element.HasId := by
  unfold knownId?
  split <;> simp_all [Element.HasId, Encounter.id]

theorem hasId_congr {x y : Encounter} (h : x.id = y.id) : x.element.HasId ↔ y.element.HasId := by
  unfold Element.HasId
  rw [show x.element.id = y.element.id from h]

/-- The reference from an end of a transition, if the end does not have a blank ID. -/
def endReferences (x : Encounter) (t : Transition) (side : TransitionEnd) : List Reference :=
  match t.atEnd side with
  | none => [⟨x.type, side.field, none, x.place⟩]
  | some v => if Text.isBlank v.id then [] else [⟨x.type, side.field, some v.id, x.place⟩]

/-- The references of an element apart from those to its parts. -/
def ownReferences (x : Encounter) : List Reference :=
  match x.element with
  | .transition t => x.endReferences t .source ++ x.endReferences t .target
  | .state state =>
    if state.isSubmachineState ∧ state.submachine.isNone then
      [⟨x.type, "Submachine", none, x.place⟩]
    else []
  | _ => []

/-- What an end of a transition refers to. -/
theorem mem_endReferences {t : Transition} {side : TransitionEnd} {r : Reference} :
    r ∈ x.endReferences t side ↔
      (t.atEnd side = none ∧ r = ⟨x.type, side.field, none, x.place⟩) ∨
        ∃ v, t.atEnd side = some v ∧ Text.isBlank v.id = false ∧
          r = ⟨x.type, side.field, some v.id, x.place⟩ := by
  unfold endReferences
  cases t.atEnd side with
  | none => simp
  | some v => cases hid : Text.isBlank v.id <;> simp [hid]

/-- The references of an element are located at the element. -/
theorem located_of_mem_ownReferences {r : Reference} (h : r ∈ x.ownReferences) :
    r.type = x.type ∧ r.place = x.place := by
  unfold ownReferences at h
  split at h
  · rcases List.mem_append.1 h with h | h <;>
      rcases mem_endReferences.1 h with ⟨-, rfl⟩ | ⟨v, -, -, rfl⟩ <;> exact ⟨rfl, rfl⟩
  · split at h
    · rw [List.mem_singleton.1 h]
      exact ⟨rfl, rfl⟩
    · cases h
  · cases h

@[simp] theorem owner_part (x : Encounter) (p : Part) : (x.part p).owner = x.knownId? := rfl

@[simp] theorem element_part (x : Encounter) (p : Part) : (x.part p).element = p.element := rfl

end Encounter

namespace Survey

variable {s : Survey} {x first : Encounter} {p : Part} {id : String}

theorem entry?_eq_some (h : s.entry? id = some x) : x ∈ s.entries ∧ x.id = id :=
  ⟨List.mem_of_find?_eq_some h, by simpa using List.find?_some h⟩

theorem entry?_eq_none : s.entry? id = none ↔ ∀ x ∈ s.entries, x.id ≠ id := by
  simp [List.find?_eq_none, entry?]

theorem entry?_isSome : (s.entry? id).isSome ↔ ∃ x ∈ s.entries, x.id = id := by
  simp [List.find?_isSome, entry?]

theorem enters_iff : s.enters x = true ↔ (x.element.HasId → s.entry? x.id = none) := by
  unfold enters
  by_cases h : x.element.HasId
  · rw [Encounter.knownId?_eq_some.2 ⟨h, rfl⟩]
    simp [h]
  · rw [Encounter.knownId?_eq_none.2 h]
    simp [h]

/-! ### Meeting an element -/

theorem meet_of_blank (h : ¬ x.element.HasId) : s.meet x = s.report x .noId := by
  unfold meet
  rw [Encounter.knownId?_eq_none.2 h]

theorem meet_of_new (h : x.element.HasId) (hnew : s.entry? x.id = none) :
    s.meet x = { s with entries := s.entries ++ [x] } := by
  unfold meet
  rw [Encounter.knownId?_eq_some.2 ⟨h, rfl⟩]
  simp only [hnew]

theorem meet_of_entry (h : x.element.HasId) (hfirst : s.entry? x.id = some first) :
    s.meet x = s.repeated first x := by
  unfold meet
  rw [Encounter.knownId?_eq_some.2 ⟨h, rfl⟩]
  simp only [hfirst]

theorem meet_cases (s : Survey) (x : Encounter) :
    (¬ x.element.HasId ∧ s.meet x = s.report x .noId) ∨
    (x.element.HasId ∧ s.entry? x.id = none ∧ s.meet x = { s with entries := s.entries ++ [x] }) ∨
    ∃ first, x.element.HasId ∧ s.entry? x.id = some first ∧ s.meet x = s.repeated first x := by
  by_cases h : x.element.HasId
  · cases hfirst : s.entry? x.id with
    | none => exact .inr (.inl ⟨h, rfl, meet_of_new h hfirst⟩)
    | some first => exact .inr (.inr ⟨first, h, rfl, meet_of_entry h hfirst⟩)
  · exact .inl ⟨h, meet_of_blank h⟩

/-- What a recurrence says of an encounter and the first one with its ID. -/
def Tells (s : Survey) (first x : Encounter) : Recurrence → Prop
  | .sameElement => first.origin = x.origin
  | .samePoint => first.isSamePoint x = true
  | .listing => first.isListing x = true ∧ x.id ∉ s.listed
  | .refusedListing v =>
    x.element = .vertex v ∧ (x.owner, v) ∈ s.refused ∧ (first.isListing x = true → x.id ∈ s.listed)
  | .duplicate =>
    (∀ v, x.element = .vertex v → (x.owner, v) ∉ s.refused) ∧
      (first.isListing x = true → x.id ∈ s.listed)

theorem tells_recurrence (s : Survey) (first x : Encounter) :
    s.Tells first x (s.recurrence first x) := by
  unfold recurrence
  split
  · next horigin => exact horigin
  split
  · next hpoint => exact hpoint
  split
  · next hlisting => exact hlisting
  · next hlisting =>
    have hlisted : first.isListing x = true → x.id ∈ s.listed := by
      intro hpair
      exact not_not.1 fun hnew => hlisting ⟨hpair, hnew⟩
    unfold refusal
    split
    · next v hv =>
      split
      · next hmem => exact ⟨hv, hmem, hlisted⟩
      · next hmem =>
        refine ⟨?_, hlisted⟩
        intro v' hv'
        cases hv.symm.trans hv'
        exact hmem
    · next hv => exact ⟨fun v hv' => absurd hv' (hv v), hlisted⟩

/-- The outcomes of a recurrence: nothing, a listing, the listing of a refused state, a duplicate. A
listing that is the first one is never a duplicate. -/
theorem repeated_cases (s : Survey) (first x : Encounter) :
    ((first.origin = x.origin ∨ first.isSamePoint x = true) ∧ s.repeated first x = s) ∨
    (first.isListing x = true ∧ x.id ∉ s.listed ∧
      s.repeated first x = { s with listed := x.id :: s.listed }) ∨
    (∃ v, x.element = .vertex v ∧ (x.owner, v) ∈ s.refused ∧
      s.repeated first x = { s with refused := s.refused.erase (x.owner, v) }) ∨
    ((first.isListing x = true → x.id ∈ s.listed) ∧
      s.repeated first x = (s.refuse x).report x (.duplicateId x.id first.type first.place)) := by
  have htells := s.tells_recurrence first x
  unfold repeated
  cases hr : s.recurrence first x with
  | sameElement =>
    rw [hr] at htells
    exact .inl ⟨.inl htells, rfl⟩
  | samePoint =>
    rw [hr] at htells
    exact .inl ⟨.inr htells, rfl⟩
  | listing =>
    rw [hr] at htells
    exact .inr (.inl ⟨htells.1, htells.2, rfl⟩)
  | refusedListing v =>
    rw [hr] at htells
    exact .inr (.inr (.inl ⟨v, htells.1, htells.2.1, rfl⟩))
  | duplicate =>
    rw [hr] at htells
    exact .inr (.inr (.inr ⟨htells.2, rfl⟩))

@[simp] theorem edges_report (r : Relation) (cause : Defect) :
    (s.report x cause).edges r = s.edges r := by
  cases r <;> rfl

@[simp] theorem entries_refuse : (s.refuse x).entries = s.entries := by unfold refuse; split <;> rfl

@[simp] theorem edges_refuse (r : Relation) : (s.refuse x).edges r = s.edges r := by
  cases r <;> (unfold refuse; split <;> rfl)

@[simp] theorem references_refuse : (s.refuse x).references = s.references := by
  unfold refuse; split <;> rfl

@[simp] theorem association_refuse : (s.refuse x).association = s.association := by
  unfold refuse; split <;> rfl

theorem mem_refused_refuse {o : Option String × Vertex} :
    o ∈ (s.refuse x).refused ↔
      o ∈ s.refused ∨ ∃ state, x.element = .state state ∧ o = (x.owner, state.toVertex) := by
  unfold refuse
  split <;> simp_all

@[simp] theorem listed_refuse : (s.refuse x).listed = s.listed := by unfold refuse; split <;> rfl

@[simp] theorem defects_refuse : (s.refuse x).defects = s.defects := by unfold refuse; split <;> rfl

/-- A recurrence touches the bookkeeping of duplicates and nothing else. -/
theorem repeated_frame (s : Survey) (first x : Encounter) :
    (s.repeated first x).entries = s.entries ∧ (∀ r, (s.repeated first x).edges r = s.edges r) ∧
      (s.repeated first x).references = s.references ∧
      (s.repeated first x).association = s.association := by
  rcases repeated_cases s first x with ⟨-, h⟩ | ⟨-, -, h⟩ | ⟨v, -, -, h⟩ | ⟨-, h⟩ <;> rw [h]
  · exact ⟨rfl, fun r => rfl, rfl, rfl⟩
  · exact ⟨rfl, fun r => by cases r <;> rfl, rfl, rfl⟩
  · exact ⟨rfl, fun r => by cases r <;> rfl, rfl, rfl⟩
  · exact ⟨entries_refuse, fun r => by rw [edges_report, edges_refuse],
      references_refuse, association_refuse⟩

theorem mem_entries_meet {y : Encounter} :
    y ∈ (s.meet x).entries ↔
      y ∈ s.entries ∨ y = x ∧ x.element.HasId ∧ s.entry? x.id = none := by
  rcases meet_cases s x with ⟨hid, h⟩ | ⟨hid, hnew, h⟩ | ⟨first, hid, hfirst, h⟩ <;> rw [h]
  · simp [report, hid]
  · simp [hid, hnew]
  · rw [(repeated_frame s first x).1]
    simp [hfirst]

@[simp] theorem edges_meet (r : Relation) : (s.meet x).edges r = s.edges r := by
  rcases meet_cases s x with ⟨hid, h⟩ | ⟨hid, hnew, h⟩ | ⟨first, hid, hfirst, h⟩ <;> rw [h]
  · cases r <;> rfl
  · cases r <;> rfl
  · exact (repeated_frame s first x).2.1 r

@[simp] theorem references_meet : (s.meet x).references = s.references := by
  rcases meet_cases s x with ⟨hid, h⟩ | ⟨hid, hnew, h⟩ | ⟨first, hid, hfirst, h⟩ <;> rw [h]
  · rfl
  · exact (repeated_frame s first x).2.2.1

@[simp] theorem association_meet : (s.meet x).association = s.association := by
  rcases meet_cases s x with ⟨hid, h⟩ | ⟨hid, hnew, h⟩ | ⟨first, hid, hfirst, h⟩ <;> rw [h]
  · rfl
  · exact (repeated_frame s first x).2.2.2

/-! ### Linking a part -/

theorem link_of_blank (h : ¬ (x.element.HasId ∧ p.element.HasId)) : s.link x p = s := by
  unfold link
  split
  · next id target hid htarget =>
    exact absurd ⟨(Encounter.knownId?_eq_some.1 hid).1, (Encounter.knownId?_eq_some.1 htarget).1⟩ h
  · rfl

theorem link_of_hasId (hx : x.element.HasId) (hp : p.element.HasId) :
    s.link x p =
      let s := s.refer x p.step.text (some p.element.id)
      match p.role with
      | .submachine => { s with standIn := s.standIn.insert x.id p.element.id }
      | .referencePoint =>
        { s with
          containment := s.containment.insert x.id p.element.id
          association := s.association.insertBoth x.id p.element.id }
      | .member | .machinePoint =>
        { s with containment := s.containment.insert x.id p.element.id } := by
  unfold link
  rw [Encounter.knownId?_eq_some.2 ⟨hx, rfl⟩,
    (Encounter.knownId?_eq_some (x := x.part p)).2 ⟨hp, rfl⟩]
  rfl

theorem mem_edges_link {r : Relation} {e : String × String} :
    e ∈ (s.link x p).edges r ↔
      e ∈ s.edges r ∨
        r = p.role.relation ∧ x.element.HasId ∧ p.element.HasId ∧ e = (x.id, p.element.id) := by
  by_cases h : x.element.HasId ∧ p.element.HasId
  · obtain ⟨hx, hp⟩ := h
    rw [link_of_hasId hx hp]
    cases hrole : p.role <;> cases r <;>
      simp [hx, hp, edges, Role.relation, Digraph.mem_edges_insert, refer]
  · rw [link_of_blank h]
    exact ⟨.inl, fun he => he.elim id fun ⟨_, hx, hp, _⟩ => absurd ⟨hx, hp⟩ h⟩

/-- Linking touches references and edges only. -/
theorem link_frame (s : Survey) (x : Encounter) (p : Part) :
    (s.link x p).entries = s.entries ∧ (s.link x p).listed = s.listed ∧
      (s.link x p).refused = s.refused ∧ (s.link x p).defects = s.defects := by
  by_cases h : x.element.HasId ∧ p.element.HasId
  · rw [link_of_hasId h.1 h.2]
    cases p.role <;> exact ⟨rfl, rfl, rfl, rfl⟩
  · rw [link_of_blank h]
    exact ⟨rfl, rfl, rfl, rfl⟩

@[simp] theorem entries_link : (s.link x p).entries = s.entries := (link_frame s x p).1

@[simp] theorem listed_link : (s.link x p).listed = s.listed := (link_frame s x p).2.1

@[simp] theorem refused_link : (s.link x p).refused = s.refused := (link_frame s x p).2.2.1

@[simp] theorem defects_link : (s.link x p).defects = s.defects := (link_frame s x p).2.2.2

/-- A link adds a reference to the part, if both have an ID. -/
theorem references_link (s : Survey) (x : Encounter) (p : Part) :
    (s.link x p).references = s.references ++
      if x.element.HasId ∧ p.element.HasId then
        [⟨x.type, p.step.text, some p.element.id, x.place⟩]
      else [] := by
  split
  · next h =>
    rw [link_of_hasId h.1 h.2]
    cases p.role <;> rfl
  · next h => rw [link_of_blank h, List.append_nil]

theorem mem_references_link {r : Reference} :
    r ∈ (s.link x p).references ↔ r ∈ s.references ∨ x.element.HasId ∧ p.element.HasId ∧
      r = ⟨x.type, p.step.text, some p.element.id, x.place⟩ := by
  rw [references_link, List.mem_append]
  split
  · next h => simp [h.1, h.2]
  · next h =>
    refine or_congr_right ⟨nofun, ?_⟩
    rintro ⟨hx, hp, -⟩
    exact absurd ⟨hx, hp⟩ h

/-- Only a point that a connection point reference names is associated with its owner. -/
theorem mem_association_link {e : String × String} :
    e ∈ (s.link x p).association.edges ↔ e ∈ s.association.edges ∨
      p.role = .referencePoint ∧ x.element.HasId ∧ p.element.HasId ∧
        (e = (x.id, p.element.id) ∨ e = (p.element.id, x.id)) := by
  by_cases h : x.element.HasId ∧ p.element.HasId
  · obtain ⟨hx, hp⟩ := h
    rw [link_of_hasId hx hp]
    cases hrole : p.role <;> simp [hx, hp, Digraph.mem_edges_insertBoth, refer]
  · rw [link_of_blank h]
    exact ⟨.inl, fun he => he.elim id fun ⟨_, hx, hp, _⟩ => absurd ⟨hx, hp⟩ h⟩

theorem association_link (h : p.role ≠ .referencePoint) :
    (s.link x p).association = s.association := by
  by_cases hid : x.element.HasId ∧ p.element.HasId
  · rw [link_of_hasId hid.1 hid.2]
    cases hrole : p.role <;> first | rfl | exact absurd hrole h
  · rw [link_of_blank hid]

/-! ### Settling an element -/

theorem referEnd_eq (s : Survey) (x : Encounter) (t : Transition) (side : TransitionEnd) :
    s.referEnd x t side = { s with references := s.references ++ x.endReferences t side } := by
  unfold referEnd Encounter.endReferences
  cases t.atEnd side with
  | none => rfl
  | some v =>
    simp only
    split
    · simp
    · rfl

/-- Settling touches references and associations only. -/
theorem settle_eq (s : Survey) (x : Encounter) :
    ∃ a, s.settle x = { s with references := s.references ++ x.ownReferences, association := a } := by
  unfold settle Encounter.ownReferences
  cases x.element with
  | transition t =>
    simp only [referEnd_eq, List.append_assoc]
    split
    · split
      · exact ⟨_, rfl⟩
      · exact ⟨_, rfl⟩
    · exact ⟨_, rfl⟩
  | state state =>
    simp only
    split
    · exact ⟨_, rfl⟩
    · exact ⟨s.association, by simp⟩
  | _ => exact ⟨s.association, by simp⟩

@[simp] theorem references_settle :
    (s.settle x).references = s.references ++ x.ownReferences := by
  obtain ⟨a, h⟩ := settle_eq s x; rw [h]

/-- Settling a transition associates its ends, if both have an ID. -/
theorem mem_association_settle {t : Transition} (h : x.element = .transition t)
    {e : String × String} :
    e ∈ (s.settle x).association.edges ↔ e ∈ s.association.edges ∨
      ∃ u v, t.atEnd .source = some u ∧ t.atEnd .target = some v ∧ Text.isBlank u.id = false ∧
        Text.isBlank v.id = false ∧ (e = (u.id, v.id) ∨ e = (v.id, u.id)) := by
  unfold settle
  rw [h]
  simp only [Transition.atEnd, referEnd_eq]
  split
  · next u v hu hv =>
    split
    · next hblank =>
      refine ⟨.inl, fun he => he.elim id ?_⟩
      rintro ⟨u', v', hu', hv', hid, hid', -⟩
      cases hu.symm.trans hu'
      cases hv.symm.trans hv'
      simp [hid, hid'] at hblank
    · next hblank =>
      simp only [Bool.or_eq_true, not_or, Bool.not_eq_true] at hblank
      rw [Digraph.mem_edges_insertBoth]
      simp [hu, hv, hblank.1, hblank.2]
  · next hnone =>
    refine ⟨.inl, fun he => he.elim id ?_⟩
    rintro ⟨u, v, hu, hv, -⟩
    exact absurd hv (hnone u v hu)

/-- Settling anything else associates nothing. -/
theorem association_settle (h : ∀ t, x.element ≠ .transition t) :
    (s.settle x).association = s.association := by
  unfold settle
  split
  · next t ht => exact absurd ht (h t)
  · split <;> rfl
  · rfl

theorem settle_of_not_transition (h : ∀ t, x.element ≠ .transition t)
    (hstate : ∀ state, x.element = .state state → state.isSubmachineState = false) :
    s.settle x = s := by
  unfold settle
  split
  · next t ht => exact absurd ht (h t)
  · next state hs => rw [if_neg (by simp [hstate state hs])]
  · rfl

@[simp] theorem entries_settle : (s.settle x).entries = s.entries := by
  obtain ⟨a, h⟩ := settle_eq s x; rw [h]

@[simp] theorem edges_settle (r : Relation) : (s.settle x).edges r = s.edges r := by
  obtain ⟨a, h⟩ := settle_eq s x; rw [h]; cases r <;> rfl

@[simp] theorem listed_settle : (s.settle x).listed = s.listed := by
  obtain ⟨a, h⟩ := settle_eq s x; rw [h]

@[simp] theorem refused_settle : (s.settle x).refused = s.refused := by
  obtain ⟨a, h⟩ := settle_eq s x; rw [h]

@[simp] theorem defects_settle : (s.settle x).defects = s.defects := by
  obtain ⟨a, h⟩ := settle_eq s x; rw [h]

end Survey

end Statechart
