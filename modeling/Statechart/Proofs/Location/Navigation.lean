import Statechart.Entity
import Statechart.Proofs.Location.Text
import Statechart.Proofs.Survey.Tree

/-! Navigation. An entity holds others at steps: the parts that have a place of their own in the
model, and the conditions, actions and triggers attached to it. A locator leads from an entity to
what stands at its end, and the text of the locator leads to the same entity: it is split at the
dots and each piece picks what is held at the step that reads so. -/

namespace Statechart

/-- What stands in an optional field. -/
def Entity.inField {α : Type} (name : String) (entity : α → Entity) (slot : Option α) :
    List (Segment × Entity) :=
  slot.toList.map fun x => (.field name, entity x)

/-- What an element holds that is no element. -/
def Element.attachments : Element → List (Segment × Entity)
  | state s =>
    Entity.inField "Entry" .behavior s.entry ++ Entity.inField "Exit" .behavior s.exit
      ++ Entity.inField "DoActivity" .behavior s.doActivity
  | transition t =>
    Entity.inField "Guard" .constraint t.guard ++ Entity.inField "Effect" .behavior t.effect
      ++ t.triggers.zipIdx.map fun x => (.item "Triggers" x.2, .trigger x.1)
  | stateMachine _ | region _ | vertex _ | pseudostate _ | finalState _
  | connectionPointReference _ => []

namespace Entity

/-- What an entity holds, with the step to it. -/
def children : Entity → List (Segment × Entity)
  | element e => e.parts.map (fun p => (p.step, element p.element)) ++ e.attachments
  | regionVertex _ | constraint _ | behavior _ | trigger _ => []

/-- Whether following a locator from one entity ends at another. -/
def Leads (x : Entity) : Locator → Entity → Prop
  | [], y => x = y
  | s :: l, y => ∃ z, (s, z) ∈ x.children ∧ z.Leads l y

/-- Follows steps by their texts. -/
def follow (x : Entity) : List (List Char) → Option Entity
  | [] => some x
  | step :: rest =>
    (x.children.find? (·.1.text.toList = step)).bind fun child => child.2.follow rest

/-- Reads a path as navigation from an entity. The empty path stands for the entity itself. -/
def resolve (root : Entity) (path : String) : Option Entity :=
  if path = "" then some root else root.follow (path.toList.splitOn '.')

variable {x y : Entity} {l : Locator}

theorem mem_inField {α : Type} {name : String} {entity : α → Entity} {slot : Option α}
    {child : Segment × Entity} :
    child ∈ inField name entity slot ↔ ∃ a, slot = some a ∧ child = (.field name, entity a) := by
  simp only [inField, List.mem_map, Option.mem_toList, eq_comm]

end Entity

namespace Element

/-- The names of the fields that an element can hold others in. -/
def stepNames : List String :=
  ["Regions", "ConnectionPoints", "States", "Vertices", "Transitions", "Connections", "Submachine",
    "Entry", "Exit", "DoActivity", "Guard", "Effect", "Triggers"]

variable {e : Element} {p : Part}

theorem step_name_of_mem_parts (h : p ∈ e.parts) : p.step.name ∈ stepNames := by
  cases e with
  | stateMachine m =>
    rcases mem_parts_stateMachine.1 h with h | h <;> obtain ⟨i, hi, rfl⟩ := Part.mem_ofList.1 h <;>
      simp [Segment.item, stepNames]
  | region r =>
    rcases mem_parts_region.1 h with h | h | h <;> obtain ⟨i, hi, rfl⟩ := Part.mem_ofList.1 h <;>
      simp [Segment.item, stepNames]
  | state s =>
    rcases mem_parts_state.1 h with h | h | ⟨m, -, rfl⟩
    · obtain ⟨i, hi, rfl⟩ := Part.mem_ofList.1 h
      simp [Segment.item, stepNames]
    · obtain ⟨i, hi, rfl⟩ := Part.mem_ofList.1 h
      simp [Segment.item, stepNames]
    · simp [Segment.field, stepNames]
  | connectionPointReference c =>
    rcases mem_parts_connectionPointReference.1 h with h | h <;>
      obtain ⟨i, hi, rfl⟩ := Part.mem_ofList.1 h <;> simp [Segment.item, stepNames]
  | vertex v => cases h
  | pseudostate q => cases h
  | finalState f => cases h
  | transition t => cases h

theorem mem_attachments_state {s : State} {child : Segment × Entity} :
    child ∈ (state s).attachments ↔
      (∃ b, s.entry = some b ∧ child = (.field "Entry", .behavior b)) ∨
        (∃ b, s.exit = some b ∧ child = (.field "Exit", .behavior b)) ∨
        ∃ b, s.doActivity = some b ∧ child = (.field "DoActivity", .behavior b) := by
  rw [attachments, List.mem_append, List.mem_append, or_assoc, Entity.mem_inField,
    Entity.mem_inField, Entity.mem_inField]

theorem mem_attachments_transition {t : Transition} {child : Segment × Entity} :
    child ∈ (transition t).attachments ↔
      (∃ g, t.guard = some g ∧ child = (.field "Guard", .constraint g)) ∨
        (∃ b, t.effect = some b ∧ child = (.field "Effect", .behavior b)) ∨
        ∃ i, ∃ h : i < t.triggers.length, child = (.item "Triggers" i, .trigger t.triggers[i]) := by
  rw [attachments, List.mem_append, List.mem_append, or_assoc, Entity.mem_inField,
    Entity.mem_inField]
  refine or_congr_right (or_congr_right ?_)
  rw [List.mem_map]
  constructor
  · rintro ⟨⟨x, i⟩, hx, rfl⟩
    obtain ⟨hi, heq⟩ := List.mem_zipIdx' hx
    exact ⟨i, hi, by rw [heq]⟩
  · rintro ⟨i, hi, rfl⟩
    exact ⟨(t.triggers[i], i), List.mk_mem_zipIdx_iff_getElem?.2 (List.getElem?_eq_getElem hi), rfl⟩

theorem step_name_of_mem_attachments {child : Segment × Entity} (h : child ∈ e.attachments) :
    child.1.name ∈ stepNames := by
  cases e with
  | state s =>
    rcases mem_attachments_state.1 h with ⟨b, -, rfl⟩ | ⟨b, -, rfl⟩ | ⟨b, -, rfl⟩ <;>
      simp [Segment.field, stepNames]
  | transition t =>
    rcases mem_attachments_transition.1 h with ⟨g, -, rfl⟩ | ⟨b, -, rfl⟩ | ⟨i, hi, rfl⟩ <;>
      simp [Segment.field, Segment.item, stepNames]
  | _ => cases h

/-- Nothing is attached at the step to a part. -/
theorem step_ne_of_mem_attachments {s : Segment} {y : Entity} (hp : p ∈ e.parts)
    (h : (s, y) ∈ e.attachments) : p.step ≠ s := by
  rintro rfl
  cases e with
  | state t =>
    have hattached : p.step.name ∈ ["Entry", "Exit", "DoActivity"] := by
      rcases mem_attachments_state.1 h with ⟨b, -, h⟩ | ⟨b, -, h⟩ | ⟨b, -, h⟩ <;>
        simp [(Prod.mk.inj h).1, Segment.field]
    rcases mem_parts_state.1 hp with hp | hp | ⟨m, -, rfl⟩
    · obtain ⟨i, hi, rfl⟩ := Part.mem_ofList.1 hp
      simp [Segment.item] at hattached
    · obtain ⟨i, hi, rfl⟩ := Part.mem_ofList.1 hp
      simp [Segment.item] at hattached
    · simp [Segment.field] at hattached
  | transition t => cases hp
  | _ => cases h

theorem attachment_unique {s : Segment} {y z : Entity} (hy : (s, y) ∈ e.attachments)
    (hz : (s, z) ∈ e.attachments) : y = z := by
  cases e with
  | state t =>
    rcases mem_attachments_state.1 hy with ⟨b, hb, hy⟩ | ⟨b, hb, hy⟩ | ⟨b, hb, hy⟩ <;>
      rcases mem_attachments_state.1 hz with ⟨d, hd, hz⟩ | ⟨d, hd, hz⟩ | ⟨d, hd, hz⟩ <;>
        simp_all [Segment.field]
  | transition t =>
    rcases mem_attachments_transition.1 hy with ⟨g, hg, hy⟩ | ⟨b, hb, hy⟩ | ⟨i, hi, hy⟩ <;>
      rcases mem_attachments_transition.1 hz with ⟨g', hg', hz⟩ | ⟨b', hb', hz⟩ | ⟨j, hj, hz⟩ <;>
        simp_all [Segment.field, Segment.item]
  | _ => cases hy

end Element

namespace Entity

variable {x y z : Entity} {s : Segment} {l : Locator}

theorem isPlain_of_mem_children (h : (s, y) ∈ x.children) : s.IsPlain := by
  have hname : s.name ∈ Element.stepNames := by
    cases x with
    | element e =>
      rcases List.mem_append.1 h with h | h
      · obtain ⟨p, hp, heq⟩ := List.mem_map.1 h
        cases heq
        exact Element.step_name_of_mem_parts hp
      · exact Element.step_name_of_mem_attachments h
    | _ => cases h
  have hall : ∀ name ∈ Element.stepNames,
      name.toList ≠ [] ∧ '.' ∉ name.toList ∧ '[' ∉ name.toList := by decide
  obtain ⟨hne, hdot, hbracket⟩ := hall _ hname
  exact ⟨hne, hdot, hbracket⟩

/-- At a step an entity holds one other. -/
theorem child_unique (hy : (s, y) ∈ x.children) (hz : (s, z) ∈ x.children) : y = z := by
  cases x with
  | element e =>
    rcases List.mem_append.1 hy with hy | hy <;> rcases List.mem_append.1 hz with hz | hz
    · obtain ⟨p, hp, heq⟩ := List.mem_map.1 hy
      obtain ⟨q, hq, heq'⟩ := List.mem_map.1 hz
      obtain ⟨rfl, rfl⟩ := Prod.mk.inj heq
      obtain ⟨hstep, rfl⟩ := Prod.mk.inj heq'
      rw [Element.eq_of_step_eq hq hp hstep]
    · obtain ⟨p, hp, heq⟩ := List.mem_map.1 hy
      exact absurd (Prod.mk.inj heq).1 (Element.step_ne_of_mem_attachments hp hz)
    · obtain ⟨p, hp, heq⟩ := List.mem_map.1 hz
      exact absurd (Prod.mk.inj heq).1 (Element.step_ne_of_mem_attachments hp hy)
    · exact Element.attachment_unique hy hz
  | _ => cases hy

theorem isPlain_of_leads (h : x.Leads l y) : ∀ s ∈ l, s.IsPlain := by
  induction l generalizing x with
  | nil => nofun
  | cons t l ih =>
    obtain ⟨z, hz, hl⟩ := h
    intro s hs
    rcases List.mem_cons.1 hs with rfl | hs
    · exact isPlain_of_mem_children hz
    · exact ih hl s hs

/-- The text of a step picks what is held at that step. -/
theorem find_child (h : (s, y) ∈ x.children) :
    x.children.find? (·.1.text.toList = s.text.toList) = some (s, y) := by
  cases hfound : x.children.find? (·.1.text.toList = s.text.toList) with
  | none =>
    have hnone := List.find?_eq_none.1 hfound _ h
    simp at hnone
  | some child =>
    obtain ⟨t, z⟩ := child
    have hmem := List.mem_of_find?_eq_some hfound
    have htext : t.text = s.text := by
      have := List.find?_some hfound
      exact String.toList_injective (by simpa using this)
    obtain rfl :=
      Segment.text_injective (isPlain_of_mem_children hmem) (isPlain_of_mem_children h) htext
    rw [child_unique hmem h]

theorem follow_of_leads (h : x.Leads l y) : x.follow (l.map (·.text.toList)) = some y := by
  induction l generalizing x with
  | nil => rw [show x = y from h, List.map_nil, follow]
  | cons s l ih =>
    obtain ⟨z, hz, hl⟩ := h
    rw [List.map_cons, follow, find_child hz]
    exact ih hl

/-- Reading the text of a locator leads to the end of the locator. -/
theorem resolve_of_leads (h : x.Leads l y) : x.resolve l.text = some y := by
  unfold resolve
  cases l with
  | nil =>
    rw [show x = y from h]
    rfl
  | cons s l =>
    have hplain := isPlain_of_leads h
    rw [if_neg (Locator.text_ne_empty hplain (by simp)),
      Locator.splitOn_text hplain (by simp)]
    exact follow_of_leads h

theorem leads_of_child (h : (s, y) ∈ x.children) (hl : y.Leads l z) : x.Leads (s :: l) z :=
  ⟨y, h, hl⟩

theorem mem_children_of_mem_parts {e : Element} {p : Part} (h : p ∈ e.parts) :
    (p.step, .element p.element) ∈ (Entity.element e).children :=
  List.mem_append_left _ (List.mem_map_of_mem h)

theorem mem_children_of_mem_attachments {e : Element} (h : (s, y) ∈ e.attachments) :
    (s, y) ∈ (Entity.element e).children :=
  List.mem_append_right _ h

/-- A way through parts is a way through entities. -/
theorem leads_of_way {e f : Element} {way : List Part} (h : e.Leads way f) :
    (Entity.element e).Leads (way.map (·.step)) (.element f) := by
  induction way generalizing e with
  | nil => exact congrArg Entity.element h
  | cons p way ih => exact ⟨_, mem_children_of_mem_parts h.1, ih h.2⟩

end Entity

/-- The places of a model are plain. -/
theorem Encounter.isPlain_place {e : Element} {x : Encounter} (hx : x ∈ (ofRoot e []).tree) :
    ∀ s ∈ x.place, s.IsPlain := by
  obtain ⟨way, hway, rfl⟩ := mem_tree.1 hx
  have hplace : ((ofRoot e []).along way).place = way.map (·.step) := by
    rw [place_along]
    rfl
  rw [hplace]
  exact Entity.isPlain_of_leads (Entity.leads_of_way hway)

end Statechart
