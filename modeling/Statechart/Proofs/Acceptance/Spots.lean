import Statechart.Proofs.Integrity.Descent
import Statechart.Proofs.Survey.Order
import Statechart.Proofs.Wellformed.Clean

/-! What a machine is made of, and what it means that no ID in it is used twice. A state is listed
among the vertices of its region as well, so its ID may occur there once more; apart from that an ID
stands in a single spot. A tidy machine holds no other machine and breaks no rule; all that a walk
can meet in it belongs to it. -/

namespace Statechart

/-- Whether one is a state and the other its own entry among the vertices of the region. -/
def Encounter.IsOwnListing (x y : Encounter) : Prop :=
  x.element.isListingPair y.element = true ∧ x.place.dropLast = y.place.dropLast

instance (x y : Encounter) : Decidable (x.IsOwnListing y) := inferInstanceAs (Decidable (_ ∧ _))

namespace Element

def holdsNoMachine : Element → Bool
  | state s => s.submachine.isNone
  | _ => true

theorem holdsNoMachine_iff {e : Element} :
    e.holdsNoMachine = true ↔ ∀ s, e = .state s → s.submachine = none := by
  cases e <;> simp [holdsNoMachine]

end Element

namespace StateMachine

/-- All that can be met in a machine. -/
def tree (m : StateMachine) : List Encounter := (Encounter.ofRoot (.stateMachine m) []).tree

/-- What a machine is made of: itself, its regions with their states, vertices and transitions at
any depth, and its connection points. Connection point references and the points that they name are
about another machine. -/
def spots (m : StateMachine) : List Encounter :=
  m.tree.filter fun x => x.type ≠ .connectionPointReference ∧ x.role ≠ .referencePoint

/-- No state at any depth holds a machine. -/
def IsSelfContained (m : StateMachine) : Prop :=
  ∀ x ∈ m.spots, ∀ s, x.element = .state s → s.submachine = none

/-- An ID stands in two spots only where one is a state and the other its own listing. -/
def HasDistinctIds (m : StateMachine) : Prop :=
  ∀ x ∈ m.spots, ∀ y ∈ m.spots, x.id = y.id → x.place = y.place ∨ x.IsOwnListing y

theorem isSelfContained_iff {m : StateMachine} :
    m.IsSelfContained ↔ m.spots.all (·.element.holdsNoMachine) = true := by
  simp only [IsSelfContained, List.all_eq_true, Element.holdsNoMachine_iff]

instance (m : StateMachine) : Decidable m.IsSelfContained := decidable_of_iff' _ isSelfContained_iff

instance (m : StateMachine) : Decidable m.HasDistinctIds :=
  inferInstanceAs (Decidable (∀ x ∈ m.spots, ∀ y ∈ m.spots, _ → _))

structure IsTidy (m : StateMachine) : Prop where
  clean : (Element.stateMachine m).Clean
  selfContained : m.IsSelfContained

end StateMachine

namespace Encounter

variable {x y : Encounter}

theorem IsOwnListing.symm (h : x.IsOwnListing y) : y.IsOwnListing x :=
  ⟨(Element.isListingPair_comm _ _).trans h.1, h.2.symm⟩

/-- A listing joins a state and a vertex. -/
theorem IsOwnListing.types (h : x.IsOwnListing y) :
    (x.type = .state ∧ y.type = .vertex) ∨ (x.type = .vertex ∧ y.type = .state) :=
  Element.types_of_isListingPair h.1

theorem place_part (x : Encounter) (p : Part) : (x.part p).place.dropLast = x.place := by
  simp [part]

end Encounter

/-- What belongs to one region has one owner. -/
theorem StateMachine.isListing_of_own {m : StateMachine} {x y : Encounter} (hx : x ∈ m.tree)
    (hy : y ∈ m.tree) (hown : x.IsOwnListing y) : x.isListing y = true := by
  have owned (z : Encounter) (hz : z ∈ m.tree) (htype : z.type = .state ∨ z.type = .vertex) :
      ∃ o ∈ m.tree, z.owner = o.knownId? ∧ z.place.dropLast = o.place := by
    rcases Encounter.eq_or_part_of_mem_tree hz with rfl | ⟨o, ho, p, hp, rfl⟩
    · rcases htype with htype | htype <;> cases htype
    · exact ⟨o, ho, rfl, Encounter.place_part o p⟩
  have htypes : (x.type = .state ∨ x.type = .vertex) ∧ (y.type = .state ∨ y.type = .vertex) := by
    rcases hown.types with ⟨hx, hy⟩ | ⟨hx, hy⟩
    · exact ⟨.inl hx, .inr hy⟩
    · exact ⟨.inr hx, .inl hy⟩
  obtain ⟨o, ho, hxo, hxp⟩ := owned x hx htypes.1
  obtain ⟨o', ho', hyo, hyp⟩ := owned y hy htypes.2
  have heq : o = o' := by
    apply Encounter.eq_of_place_eq ho ho'
    rw [← hxp, ← hyp, hown.2]
  rw [Encounter.isListing, hown.1, hxo, hyo, heq]
  simp

namespace StateMachine.IsTidy

variable {m : StateMachine} {x y : Encounter}

/-- All that can be met in a tidy machine breaks no rule and belongs to the machine. -/
theorem own (h : m.IsTidy) :
    ∀ x ∈ m.tree, x.element.Clean ∧ x.type ≠ .connectionPointReference ∧
      (x.role = .member ∨ x.role = .machinePoint) := by
  apply Encounter.tree_induction
  · exact ⟨h.clean, nofun, .inl rfl⟩
  · intro x hx ⟨hclean, htype, hrole⟩ p hp
    have hspot : x ∈ m.spots := by
      refine List.mem_filter.2 ⟨hx, ?_⟩
      rcases hrole with hrole | hrole <;> simp [htype, hrole]
    exact hclean.part (h.selfContained x hspot) htype hp

theorem spots_eq (h : m.IsTidy) : m.spots = m.tree := by
  apply List.filter_eq_self.2
  intro x hx
  obtain ⟨-, htype, hrole⟩ := h.own x hx
  rcases hrole with hrole | hrole <;> simp [htype, hrole]

theorem hasId (h : m.IsTidy) (hx : x ∈ m.tree) : x.element.HasId := (h.own x hx).1.hasId

/-- Only the machine itself is a machine. -/
theorem type_ne_of_mem_parts (h : m.IsTidy) (hx : x ∈ m.tree) {p : Part}
    (hp : p ∈ x.element.parts) : p.element.type ≠ .stateMachine := by
  obtain ⟨-, -, hrole⟩ := h.own _ (Encounter.part_mem_tree hx hp)
  intro htype
  have hrel := (Element.relation_of_mem_parts hp).2 htype
  rcases hrole with hrole | hrole <;> rw [show p.role = _ from hrole] at hrel <;> cases hrel

/-- Nothing in a tidy machine is shared, so origins are places. -/
theorem origin_eq (h : m.IsTidy) :
    ∀ x ∈ m.tree, x.origin = { definition := m.shared, steps := x.place } := by
  apply Encounter.tree_induction
  · rfl
  · intro x hx horigin p hp
    have hnone := Element.definition?_eq_none (h.type_ne_of_mem_parts hx hp)
    simp [Encounter.part, Origin.ofPart, hnone, horigin]

theorem eq_of_origin_eq (h : m.IsTidy) (hx : x ∈ m.tree) (hy : y ∈ m.tree)
    (horigin : x.origin = y.origin) : x = y := by
  rw [h.origin_eq x hx, h.origin_eq y hy] at horigin
  exact Encounter.eq_of_place_eq hx hy (congrArg Origin.steps horigin)

theorem coherent (h : m.IsTidy) : (Element.stateMachine m).Coherent := by
  have root (way : List Part) (f : Element) (n : ℕ) (hway : (Element.stateMachine m).Leads way f)
      (hf : f.definition? = some n) : f = .stateMachine m := by
    have hend : ((Encounter.ofRoot (.stateMachine m) []).along way).element = f :=
      Encounter.element_along hway
    have hmem : (Encounter.ofRoot (.stateMachine m) []).along way ∈ m.tree :=
      Encounter.mem_tree.2 ⟨way, hend.symm ▸ hway, rfl⟩
    rcases Encounter.eq_or_part_of_mem_tree hmem with heq | ⟨z, hz, p, hp, heq⟩
    · rw [← hend, heq]
      rfl
    · have hnone := Element.definition?_eq_none (h.type_ne_of_mem_parts hz hp)
      have helement : p.element = f := by
        rw [← hend, heq]
        rfl
      rw [helement, hf] at hnone
      cases hnone
  intro way way' f g n hf hg hfn hgn
  rw [root way f n hf hfn, root way' g n hg hgn]

theorem not_isSamePoint (h : m.IsTidy) (hx : x ∈ m.tree) (hy : y ∈ m.tree) :
    ¬ x.isSamePoint y = true := by
  intro hsame
  unfold Encounter.isSamePoint at hsame
  split at hsame
  · simp only [Bool.and_eq_true, Bool.or_eq_true, decide_eq_true_eq] at hsame
    obtain ⟨-, -, hx'⟩ := h.own x hx
    obtain ⟨-, -, hy'⟩ := h.own y hy
    rcases hsame.2 with hrole | hrole
    · rw [hrole] at hx'; simp at hx'
    · rw [hrole] at hy'; simp at hy'
  · cases hsame

/-- Two elements with one ID are a state and its listing. -/
theorem listing_of_id_eq (h : m.IsTidy) (hids : m.HasDistinctIds) (hx : x ∈ m.tree)
    (hy : y ∈ m.tree) (hne : x ≠ y) (hid : x.id = y.id) : x.IsOwnListing y := by
  have hx' : x ∈ m.spots := h.spots_eq ▸ hx
  have hy' : y ∈ m.spots := h.spots_eq ▸ hy
  refine (hids x hx' y hy' hid).resolve_left ?_
  intro hplace
  exact hne (Encounter.eq_of_place_eq hx hy hplace)

end StateMachine.IsTidy

end Statechart
