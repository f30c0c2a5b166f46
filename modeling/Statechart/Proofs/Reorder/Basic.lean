import Mathlib.Data.List.Flatten
import Mathlib.Data.List.Perm.Basic
import Mathlib.Logic.Relation
import Statechart.Proofs.Survey.Tree

/-! Models that differ in the order of their lists. A step puts one list of one element in another
order, wherever in the model the element is. What such a step does to the children of an element is
one of two things: they are put in another order, or one of them takes the step itself. So what is
collected from an element and all below it is collected in another order. -/

namespace Statechart

namespace Element

/-- An element without the lists whose order may change. -/
def outline : Element → Element
  | stateMachine m => stateMachine { m with regions := [], connectionPoints := [] }
  | region r => region { r with states := [], vertices := [], transitions := [] }
  | state s => state { s with regions := [] }
  | e => e

/-- The outlines of the children. -/
def kin (e : Element) : List Element := e.children.map outline

/-- One list is put in another order. -/
inductive Reorder : Element → Element → Prop
  | regions (m : StateMachine) {l l' : List Region} (h : l.Perm l') :
    Reorder (stateMachine { m with regions := l }) (stateMachine { m with regions := l' })
  | connectionPoints (m : StateMachine) {l l' : List Pseudostate} (h : l.Perm l') :
    Reorder (stateMachine { m with connectionPoints := l })
      (stateMachine { m with connectionPoints := l' })
  | states (r : Region) {l l' : List State} (h : l.Perm l') :
    Reorder (region { r with states := l }) (region { r with states := l' })
  | vertices (r : Region) {l l' : List RegionVertex} (h : l.Perm l') :
    Reorder (region { r with vertices := l }) (region { r with vertices := l' })
  | transitions (r : Region) {l l' : List Transition} (h : l.Perm l') :
    Reorder (region { r with transitions := l }) (region { r with transitions := l' })
  | subregions (s : State) {l l' : List Region} (h : l.Perm l') :
    Reorder (state { s with regions := l }) (state { s with regions := l' })
  | inMachine (m : StateMachine) (l l' : List Region) {r r' : Region}
      (h : Reorder (region r) (region r')) :
    Reorder (stateMachine { m with regions := l ++ r :: l' })
      (stateMachine { m with regions := l ++ r' :: l' })
  | inState (s : State) (l l' : List Region) {r r' : Region}
      (h : Reorder (region r) (region r')) :
    Reorder (state { s with regions := l ++ r :: l' }) (state { s with regions := l ++ r' :: l' })
  | inRegion (r : Region) (l l' : List State) {s s' : State}
      (h : Reorder (state s) (state s')) :
    Reorder (region { r with states := l ++ s :: l' }) (region { r with states := l ++ s' :: l' })

variable {e e' : Element}

@[simp] theorem id_outline (e : Element) : e.outline.id = e.id := by cases e <;> rfl

@[simp] theorem type_outline (e : Element) : e.outline.type = e.type := by cases e <;> rfl

@[simp] theorem isListingPair_outline (e f : Element) :
    e.outline.isListingPair f.outline = e.isListingPair f := by
  cases e <;> cases f <;> rfl

namespace Reorder

theorem symm (h : Reorder e e') : Reorder e' e := by
  induction h with
  | regions m h => exact .regions m h.symm
  | connectionPoints m h => exact .connectionPoints m h.symm
  | states r h => exact .states r h.symm
  | vertices r h => exact .vertices r h.symm
  | transitions r h => exact .transitions r h.symm
  | subregions s h => exact .subregions s h.symm
  | inMachine m l l' _ ih => exact .inMachine m l l' ih
  | inState s l l' _ ih => exact .inState s l l' ih
  | inRegion r l l' _ ih => exact .inRegion r l l' ih

theorem outline_eq (h : Reorder e e') : e'.outline = e.outline := by
  cases h <;> rfl

/-- A step is known by what it does to the children of the element. -/
theorem children_induction {motive : ∀ e e', Reorder e e' → Prop}
    (order : ∀ e e' h, e.children.Perm e'.children → motive e e' h)
    (inside : ∀ e e' h l l' f f' hf, e.children = l ++ f :: l' → e'.children = l ++ f' :: l' →
      motive f f' hf → motive e e' h)
    (h : Reorder e e') : motive e e' h := by
  induction h with
  | regions m h =>
    apply order
    rw [children_stateMachine, children_stateMachine]
    exact (h.map _).append_right _
  | connectionPoints m h =>
    apply order
    rw [children_stateMachine, children_stateMachine]
    exact (h.map _).append_left _
  | states r h =>
    apply order
    rw [children_region, children_region]
    exact ((h.map _).append_right _).append_right _
  | vertices r h =>
    apply order
    rw [children_region, children_region]
    exact ((h.map _).append_left _).append_right _
  | transitions r h =>
    apply order
    rw [children_region, children_region]
    exact (h.map _).append_left _
  | subregions s h =>
    apply order
    rw [children_state, children_state]
    exact ((h.map _).append_right _).append_right _
  | inMachine m l l' h ih =>
    refine inside _ _ _ (l.map region) (l'.map region ++ m.connectionPoints.map pseudostate) _ _ h
      ?_ ?_ ih <;>
    simp [children_stateMachine]
  | inState s l l' h ih =>
    refine inside _ _ _ (l.map region) (l'.map region ++
      s.connections.map connectionPointReference ++ s.submachine.toList.map stateMachine) _ _ h
      ?_ ?_ ih <;>
    simp [children_state]
  | inRegion r l l' h ih =>
    refine inside _ _ _ (l.map state) (l'.map state ++ r.vertices.map RegionVertex.element
      ++ r.transitions.map transition) _ _ h ?_ ?_ ih <;>
    simp [children_region]

theorem kin_perm (h : Reorder e e') : e.kin.Perm e'.kin := by
  induction h using children_induction with
  | order e e' _ hperm => exact hperm.map outline
  | inside e e' _ l l' f f' hf he he' _ => simp [kin, he, he', hf.outline_eq]

end Reorder

/-! ### What is collected from an element and all below it -/

variable {α : Type} {f : Element → List α}

/-- What `f` says of an element and of all below it. -/
def census (f : Element → List α) (e : Element) : List α :=
  f e ++ e.parts.attach.flatMap fun p => census f p.1.element
termination_by sizeOf e
decreasing_by exact sizeOf_of_mem_parts p.2

theorem census_eq (f : Element → List α) (e : Element) :
    e.census f = f e ++ e.children.flatMap (census f) := by
  rw [census, children, List.flatMap_map]
  simp [List.flatMap_subtype]

/-- Whatever depends on the outlines of an element and its children, it is collected in another
order. -/
theorem Reorder.census_perm (h : Reorder e e')
    (hf : ∀ {e e'}, e'.outline = e.outline → e.kin.Perm e'.kin → (f e).Perm (f e')) :
    (e.census f).Perm (e'.census f) := by
  induction h using Reorder.children_induction with
  | order e e' h hperm =>
    rw [census_eq, census_eq]
    exact (hf h.outline_eq h.kin_perm).append (hperm.flatMap_right _)
  | inside e e' h l l' g g' _ he he' ih =>
    rw [census_eq, census_eq, he, he']
    simp only [List.flatMap_append, List.flatMap_cons]
    exact (hf h.outline_eq h.kin_perm).append (.append_left _ (ih.append_right _))

end Element

/-- A census is taken along the tree of an encounter. -/
theorem Encounter.flatMap_tree {α : Type} (f : Element → List α) (x : Encounter) :
    x.tree.flatMap (f ·.element) = x.element.census f := by
  induction hs : sizeOf x.element using Nat.strongRecOn generalizing x with
  | ind n ih =>
    rw [tree_eq, List.flatMap_cons, Element.census_eq, Element.children, List.flatMap_map,
      List.flatMap_assoc]
    congr 1
    apply List.flatMap_congr
    intro p hp
    exact ih _ (hs ▸ Element.sizeOf_of_mem_parts hp) (x.part p) rfl

end Statechart
