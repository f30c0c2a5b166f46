import Mathlib.Data.List.Nodup
import Mathlib.Data.List.Range
import Statechart.Integrity.Encounter

/-! The places of a model. A way leads from an element through parts to another element, and the
steps of a way determine it. `Encounter.tree` lists what a walk would meet that never stops short;
a real walk meets some of it, in the same order. -/

namespace Statechart

namespace Part

variable {α : Type} {role : Role} {field : String} {element : α → Element} {l : List α}

theorem mem_ofList {p : Part} :
    p ∈ ofList role field element l ↔
      ∃ i, ∃ h : i < l.length, p = ⟨role, .item field i, element l[i]⟩ := by
  rw [ofList, List.mem_iff_getElem]
  constructor
  · rintro ⟨i, hi, rfl⟩
    exact ⟨i, by simpa using hi, by simp⟩
  · rintro ⟨i, hi, rfl⟩
    exact ⟨i, by simpa using hi, by simp⟩

theorem map_element_ofList : (ofList role field element l).map (·.element) = l.map element := by
  refine List.ext_getElem (by simp [ofList]) ?_
  intro i _ _
  simp [ofList]

theorem map_step_ofList :
    (ofList role field element l).map (·.step) = (List.range l.length).map (.item field) := by
  refine List.ext_getElem (by simp [ofList]) ?_
  intro i _ _
  simp [ofList]

theorem nodup_map_step_ofList : ((ofList role field element l).map (·.step)).Nodup := by
  rw [map_step_ofList]
  refine List.Nodup.map ?_ List.nodup_range
  intro i j h
  simpa [Segment.item] using h

/-- The members of a mapped list. -/
theorem ofList_map {β : Type} {element' : β → Element} {g : α → β} {k : Element → Element}
    (h : ∀ x, element' (g x) = k (element x)) :
    ofList role field element' (l.map g) =
      (ofList role field element l).map fun p => { p with element := k p.element } := by
  simp [ofList, List.zipIdx_map, Function.comp_def, h]

/-- Parts in lists of different fields are at different steps. -/
theorem disjoint_map_step_ofList {β : Type} {role' : Role} {field' : String}
    {element' : β → Element} {l' : List β} (h : field ≠ field') :
    ((ofList role field element l).map (·.step)).Disjoint
      ((ofList role' field' element' l').map (·.step)) := by
  rw [map_step_ofList, map_step_ofList]
  intro s hs hs'
  obtain ⟨i, -, rfl⟩ := List.mem_map.1 hs
  obtain ⟨j, -, hj⟩ := List.mem_map.1 hs'
  exact h (congrArg Segment.name hj).symm

end Part

namespace Element

def HasId (e : Element) : Prop := Text.isBlank e.id = false

instance (e : Element) : Decidable e.HasId := inferInstanceAs (Decidable (_ = _))

theorem mem_parts_stateMachine {m : StateMachine} {p : Part} :
    p ∈ (stateMachine m).parts ↔
      p ∈ Part.ofList .member "Regions" region m.regions ∨
        p ∈ Part.ofList .machinePoint "ConnectionPoints" pseudostate m.connectionPoints :=
  List.mem_append

theorem mem_parts_region {r : Region} {p : Part} :
    p ∈ (region r).parts ↔
      p ∈ Part.ofList .member "States" state r.states ∨
        p ∈ Part.ofList .member "Vertices" RegionVertex.element r.vertices ∨
        p ∈ Part.ofList .member "Transitions" transition r.transitions := by
  rw [parts, List.mem_append, List.mem_append, or_assoc]

theorem mem_parts_state {s : State} {p : Part} :
    p ∈ (state s).parts ↔
      p ∈ Part.ofList .member "Regions" region s.regions ∨
        p ∈ Part.ofList .member "Connections" connectionPointReference s.connections ∨
        ∃ m, s.submachine = some m ∧ p = ⟨.submachine, .field "Submachine", stateMachine m⟩ := by
  rw [parts, List.mem_append, List.mem_append, or_assoc, List.mem_map]
  simp only [Option.mem_toList, eq_comm]

theorem mem_parts_connectionPointReference {c : ConnectionPointReference} {p : Part} :
    p ∈ (connectionPointReference c).parts ↔
      p ∈ Part.ofList .referencePoint "Entry" pseudostate c.entry ∨
        p ∈ Part.ofList .referencePoint "Exit" pseudostate c.exit :=
  List.mem_append

/-- The elements that an element holds. -/
def children (e : Element) : List Element := e.parts.map (·.element)

theorem children_stateMachine (m : StateMachine) :
    (stateMachine m).children = m.regions.map region ++ m.connectionPoints.map pseudostate := by
  simp only [children, parts, List.map_append, Part.map_element_ofList]

theorem children_region (r : Region) :
    (region r).children =
      r.states.map state ++ r.vertices.map RegionVertex.element
        ++ r.transitions.map transition := by
  simp only [children, parts, List.map_append, Part.map_element_ofList]

theorem children_state (s : State) :
    (state s).children =
      s.regions.map region ++ s.connections.map connectionPointReference
        ++ s.submachine.toList.map stateMachine := by
  simp only [children, parts, List.map_append, Part.map_element_ofList, List.map_map]
  rfl

theorem children_connectionPointReference (c : ConnectionPointReference) :
    (connectionPointReference c).children = c.entry.map pseudostate ++ c.exit.map pseudostate := by
  simp only [children, parts, List.map_append, Part.map_element_ofList]

theorem nodup_map_step_parts (e : Element) : (e.parts.map (·.step)).Nodup := by
  cases e with
  | stateMachine m =>
    rw [parts, List.map_append, List.nodup_append']
    exact ⟨Part.nodup_map_step_ofList, Part.nodup_map_step_ofList,
      Part.disjoint_map_step_ofList (by decide)⟩
  | region r =>
    rw [parts, List.map_append, List.map_append, List.nodup_append', List.nodup_append',
      List.disjoint_append_left]
    exact ⟨⟨Part.nodup_map_step_ofList, Part.nodup_map_step_ofList,
      Part.disjoint_map_step_ofList (by decide)⟩, Part.nodup_map_step_ofList,
      Part.disjoint_map_step_ofList (by decide), Part.disjoint_map_step_ofList (by decide)⟩
  | state s =>
    rw [parts, List.map_append, List.map_append, List.nodup_append', List.nodup_append',
      List.disjoint_append_left]
    refine ⟨⟨Part.nodup_map_step_ofList, Part.nodup_map_step_ofList,
      Part.disjoint_map_step_ofList (by decide)⟩, ?_, ?_, ?_⟩
    · cases s.submachine <;> simp
    all_goals
      rw [Part.map_step_ofList]
      intro x hx hx'
      obtain ⟨i, -, rfl⟩ := List.mem_map.1 hx
      obtain ⟨p, hp, hstep⟩ := List.mem_map.1 hx'
      obtain ⟨m, -, rfl⟩ := List.mem_map.1 hp
      simp [Segment.field, Segment.item] at hstep
  | connectionPointReference c =>
    rw [parts, List.map_append, List.nodup_append']
    exact ⟨Part.nodup_map_step_ofList, Part.nodup_map_step_ofList,
      Part.disjoint_map_step_ofList (by decide)⟩
  | vertex v => exact List.nodup_nil
  | pseudostate p => exact List.nodup_nil
  | finalState f => exact List.nodup_nil
  | transition t => exact List.nodup_nil

theorem eq_of_step_eq {e : Element} {p q : Part} (hp : p ∈ e.parts) (hq : q ∈ e.parts)
    (h : p.step = q.step) : p = q :=
  List.inj_on_of_nodup_map e.nodup_map_step_parts hp hq h

/-- Whether following the parts of a way from one element ends at another. -/
def Leads (e : Element) : List Part → Element → Prop
  | [], f => e = f
  | p :: way, f => p ∈ e.parts ∧ p.element.Leads way f

theorem leads_append {e f : Element} {way way' : List Part} :
    e.Leads (way ++ way') f ↔ ∃ g, e.Leads way g ∧ g.Leads way' f := by
  induction way generalizing e with
  | nil => simp [Leads]
  | cons p way ih => simp [Leads, ih, and_assoc]

theorem Leads.snoc {e f : Element} {way : List Part} (h : e.Leads way f) {p : Part}
    (hp : p ∈ f.parts) : e.Leads (way ++ [p]) p.element :=
  leads_append.2 ⟨f, h, hp, rfl⟩

/-- The steps of a way determine it, and so the element that it leads to. -/
theorem Leads.unique {e f g : Element} {way way' : List Part} (h : e.Leads way f)
    (h' : e.Leads way' g) (hsteps : way.map (·.step) = way'.map (·.step)) :
    way = way' ∧ f = g := by
  induction way generalizing e way' with
  | nil =>
    obtain rfl : way' = [] := by simpa using hsteps.symm
    exact ⟨rfl, h.symm.trans h'⟩
  | cons p way ih =>
    cases way' with
    | nil => cases hsteps
    | cons q way' =>
      simp only [List.map_cons, List.cons.injEq] at hsteps
      obtain rfl := eq_of_step_eq h.1 h'.1 hsteps.1
      obtain ⟨rfl, rfl⟩ := ih h.2 h'.2 hsteps.2
      exact ⟨rfl, rfl⟩

/-- Shared definitions are what their numbers say: wherever in the model a number occurs, it is on
one and the same machine. -/
def Coherent (e : Element) : Prop :=
  ∀ way way' f g n, e.Leads way f → e.Leads way' g → f.definition? = some n →
    g.definition? = some n → f = g

end Element

/-- The element that an origin stands for, in the model below an element. -/
def Origin.Denotes (root : Element) (o : Origin) (f : Element) : Prop :=
  ∃ base way₀ way, root.Leads way₀ base ∧ base.Leads way f ∧ o.steps = way.map (·.step)
    ∧ base.definition? = o.definition ∧ (o.definition = none → base = root)

theorem Origin.Denotes.unique {root : Element} (hroot : root.Coherent) {o : Origin}
    {f g : Element} (hf : o.Denotes root f) (hg : o.Denotes root g) : f = g := by
  obtain ⟨a, wa₀, wa, ha₀, ha, hsa, hda, hna⟩ := hf
  obtain ⟨b, wb₀, wb, hb₀, hb, hsb, hdb, hnb⟩ := hg
  have hab : a = b := by
    cases ho : o.definition with
    | none => rw [hna ho, hnb ho]
    | some n => exact hroot _ _ _ _ n ha₀ hb₀ (hda.trans ho) (hdb.trans ho)
  subst hab
  exact (ha.unique hb (hsa.symm.trans hsb)).2

namespace Encounter

/-- All that can be met from an encounter on, in the order of a walk that enters every element each
time it is met. -/
def tree (x : Encounter) : List Encounter :=
  x :: x.element.parts.attach.flatMap fun p => (x.part p.1).tree
termination_by sizeOf x.element
decreasing_by exact Element.sizeOf_of_mem_parts p.2

theorem tree_eq (x : Encounter) :
    x.tree = x :: x.element.parts.flatMap fun p => (x.part p).tree := by
  rw [tree]
  simp [List.flatMap_subtype]

/-- The encounter at the end of a way. -/
def along (x : Encounter) (way : List Part) : Encounter := way.foldl part x

theorem along_snoc (x : Encounter) (way : List Part) (p : Part) :
    x.along (way ++ [p]) = (x.along way).part p := by
  simp [along]

theorem place_along (x : Encounter) (way : List Part) :
    (x.along way).place = x.place ++ way.map (·.step) := by
  induction way generalizing x with
  | nil => simp [along]
  | cons p way ih =>
    have := ih (x.part p)
    simp only [along, List.foldl_cons] at this ⊢
    rw [this]
    simp [part]

theorem element_along {x : Encounter} {way : List Part} {f : Element}
    (h : x.element.Leads way f) : (x.along way).element = f := by
  induction way generalizing x with
  | nil => exact h
  | cons p way ih => exact ih h.2

theorem mem_tree {x y : Encounter} :
    y ∈ x.tree ↔ ∃ way, x.element.Leads way y.element ∧ y = x.along way := by
  constructor
  · intro h
    induction hs : sizeOf x.element using Nat.strongRecOn generalizing x with
    | ind n ih =>
      rw [tree_eq] at h
      rcases List.mem_cons.1 h with rfl | h
      · exact ⟨[], rfl, rfl⟩
      · obtain ⟨p, hp, hy⟩ := List.mem_flatMap.1 h
        obtain ⟨way, hway, rfl⟩ := ih _ (hs ▸ Element.sizeOf_of_mem_parts hp) hy rfl
        exact ⟨p :: way, ⟨hp, hway⟩, rfl⟩
  · rintro ⟨way, hway, rfl⟩
    induction way generalizing x with
    | nil => rw [tree_eq]; exact .head _
    | cons p way ih =>
      rw [tree_eq]
      exact .tail _ (List.mem_flatMap.2 ⟨p, hway.1, ih hway.2⟩)

/-- What is met after the start is met as a part. -/
theorem eq_or_part_of_mem_tree {x y : Encounter} (h : y ∈ x.tree) :
    y = x ∨ ∃ z ∈ x.tree, ∃ p ∈ z.element.parts, y = z.part p := by
  obtain ⟨way, hway, rfl⟩ := mem_tree.1 h
  induction way using List.reverseRecOn with
  | nil => exact .inl rfl
  | append_singleton way p =>
    obtain ⟨f, hf, hp, -⟩ := Element.leads_append.1 hway
    have heq : (x.along way).element = f := element_along hf
    have hz : x.along way ∈ x.tree := mem_tree.2 ⟨way, heq ▸ hf, rfl⟩
    exact .inr ⟨x.along way, hz, p, heq ▸ hp, along_snoc x way p⟩

theorem part_mem_tree {x y : Encounter} (h : y ∈ x.tree) {p : Part} (hp : p ∈ y.element.parts) :
    y.part p ∈ x.tree := by
  obtain ⟨way, hway, rfl⟩ := mem_tree.1 h
  exact mem_tree.2 ⟨way ++ [p], hway.snoc hp, (along_snoc x way p).symm⟩

/-- What holds of an encounter and passes on to parts holds in the whole tree. -/
theorem tree_induction {x : Encounter} {P : Encounter → Prop} (hx : P x)
    (hpart : ∀ y ∈ x.tree, P y → ∀ p ∈ y.element.parts, P (y.part p)) : ∀ y ∈ x.tree, P y := by
  intro y hy
  obtain ⟨way, hway, rfl⟩ := mem_tree.1 hy
  induction way using List.reverseRecOn with
  | nil => exact hx
  | append_singleton way p ih =>
    obtain ⟨g, hg, hp, -⟩ := Element.leads_append.1 hway
    rw [along_snoc]
    have heq : (x.along way).element = g := element_along hg
    have hmem : x.along way ∈ x.tree := mem_tree.2 ⟨way, heq ▸ hg, rfl⟩
    exact hpart _ hmem (ih hmem (heq ▸ hg)) p (heq ▸ hp)

/-- Within a tree an encounter is known by its place. -/
theorem eq_of_place_eq {x y z : Encounter} (hy : y ∈ x.tree) (hz : z ∈ x.tree)
    (h : y.place = z.place) : y = z := by
  obtain ⟨way, hway, rfl⟩ := mem_tree.1 hy
  obtain ⟨way', hway', rfl⟩ := mem_tree.1 hz
  rw [place_along, place_along] at h
  rw [(hway.unique hway' (List.append_cancel_left h)).1]

/-- An encounter is a part of one owner only. -/
theorem eq_of_part_eq {x y z : Encounter} {p q : Part} (hy : y ∈ x.tree) (hz : z ∈ x.tree)
    (h : y.part p = z.part q) : y = z :=
  eq_of_place_eq hy hz (List.append_inj' (congrArg place h) rfl).1

theorem denotes_of_mem_tree {e : Element} {place : Locator} :
    ∀ y ∈ (ofRoot e place).tree, y.origin.Denotes e y.element := by
  refine tree_induction ⟨e, [], [], rfl, rfl, rfl, rfl, fun _ => rfl⟩ ?_
  intro y _ hy p hp
  obtain ⟨base, way₀, way, h₀, hway, hsteps, hdef, hnone⟩ := hy
  cases hd : p.element.definition? with
  | some n =>
    have horigin : (y.part p).origin = { definition := some n } := by
      simp [part, Origin.ofPart, hd]
    rw [horigin]
    exact ⟨p.element, _, [], Element.leads_append.2 ⟨base, h₀, hway.snoc hp⟩, rfl, rfl, hd,
      fun h => by cases h⟩
  | none =>
    have horigin : (y.part p).origin = { y.origin with steps := y.origin.steps ++ [p.step] } := by
      simp [part, Origin.ofPart, hd]
    rw [horigin]
    exact ⟨base, way₀, way ++ [p], h₀, hway.snoc hp, by simp [hsteps], hdef, hnone⟩

end Encounter

end Statechart
