import Mathlib.Tactic.SplitIfs
import Statechart.Entity

/-! Models with other IDs. A renaming takes different IDs to different ones and blank ones to blank
ones. It is applied to the IDs of machines, regions, vertices of all types and transitions, down to
the machines that states stand for; these keep their numbers, so what was one machine is one machine
again. -/

namespace Statechart

structure Renaming where
  map : String → String
  injective : map.Injective
  isBlank_map : ∀ x, Text.isBlank (map x) = Text.isBlank x

namespace Renaming

instance : CoeFun Renaming fun _ => String → String := ⟨map⟩

variable {f : Renaming} {x y : String}

@[simp] theorem map_eq_iff : f x = f y ↔ x = y := f.injective.eq_iff

@[simp] theorem isBlank_apply (f : Renaming) (x : String) : Text.isBlank (f x) = Text.isBlank x :=
  f.isBlank_map x

/-- The renaming that leaves all IDs as they are. -/
def refl : Renaming := ⟨id, Function.injective_id, fun _ => rfl⟩

@[simp] theorem refl_apply (x : String) : refl x = x := rfl

/-- The renaming that exchanges two IDs. -/
def swap (a b : String) (h : Text.isBlank a = Text.isBlank b) : Renaming where
  map x := if x = a then b else if x = b then a else x
  injective x y hxy := by
    dsimp only at hxy
    split_ifs at hxy <;> simp_all
  isBlank_map x := by
    split_ifs <;> simp_all

end Renaming

def Vertex.rename (f : Renaming) (v : Vertex) : Vertex := { v with id := f v.id }

def Pseudostate.rename (f : Renaming) (p : Pseudostate) : Pseudostate :=
  { p with toVertex := p.toVertex.rename f }

def FinalState.rename (f : Renaming) (x : FinalState) : FinalState :=
  { x with toVertex := x.toVertex.rename f }

def ConnectionPointReference.rename (f : Renaming) (x : ConnectionPointReference) :
    ConnectionPointReference where
  toVertex := x.toVertex.rename f
  entry := x.entry.map (·.rename f)
  exit := x.exit.map (·.rename f)

def RegionVertex.rename (f : Renaming) : RegionVertex → RegionVertex
  | vertex v => vertex (v.rename f)
  | pseudostate p => pseudostate (p.rename f)
  | finalState x => finalState (x.rename f)

def Transition.rename (f : Renaming) (t : Transition) : Transition :=
  { t with
    id := f t.id
    source := t.source.map (·.rename f)
    target := t.target.map (·.rename f) }

mutual

def StateMachine.rename (f : Renaming) (m : StateMachine) : StateMachine :=
  match m with
  | { id, regions, connectionPoints, .. } =>
    { m with
      id := f id
      regions := Region.renameList f regions
      connectionPoints := connectionPoints.map (·.rename f) }

def Region.rename (f : Renaming) (r : Region) : Region :=
  match r with
  | { id, states, vertices, transitions, .. } =>
    { r with
      id := f id
      states := State.renameList f states
      vertices := vertices.map (·.rename f)
      transitions := transitions.map (·.rename f) }

def State.rename (f : Renaming) (s : State) : State :=
  match s with
  | { toVertex, regions, submachine, connections, .. } =>
    { s with
      toVertex := toVertex.rename f
      regions := Region.renameList f regions
      submachine := StateMachine.renameSlot f submachine
      connections := connections.map (·.rename f) }

def StateMachine.renameSlot (f : Renaming) : Option StateMachine → Option StateMachine
  | none => none
  | some m => some (m.rename f)

def Region.renameList (f : Renaming) : List Region → List Region
  | [] => []
  | r :: rest => r.rename f :: Region.renameList f rest

def State.renameList (f : Renaming) : List State → List State
  | [] => []
  | s :: rest => s.rename f :: State.renameList f rest

end

theorem StateMachine.renameSlot_eq_map (f : Renaming) (m : Option StateMachine) :
    renameSlot f m = m.map (·.rename f) := by
  cases m <;> simp [renameSlot]

theorem Region.renameList_eq_map (f : Renaming) (l : List Region) :
    renameList f l = l.map (·.rename f) := by
  induction l with
  | nil => simp [renameList]
  | cons r rest ih => simp [renameList, ih]

theorem State.renameList_eq_map (f : Renaming) (l : List State) :
    renameList f l = l.map (·.rename f) := by
  induction l with
  | nil => simp [renameList]
  | cons s rest ih => simp [renameList, ih]

theorem StateMachine.rename_eq (f : Renaming) (m : StateMachine) :
    m.rename f = { m with
      id := f m.id
      regions := m.regions.map (·.rename f)
      connectionPoints := m.connectionPoints.map (·.rename f) } := by
  cases m
  simp only [rename, Region.renameList_eq_map]

theorem Region.rename_eq (f : Renaming) (r : Region) :
    r.rename f = { r with
      id := f r.id
      states := r.states.map (·.rename f)
      vertices := r.vertices.map (·.rename f)
      transitions := r.transitions.map (·.rename f) } := by
  cases r
  simp only [rename, State.renameList_eq_map]

theorem State.rename_eq (f : Renaming) (s : State) :
    s.rename f = { s with
      toVertex := s.toVertex.rename f
      regions := s.regions.map (·.rename f)
      submachine := s.submachine.map (·.rename f)
      connections := s.connections.map (·.rename f) } := by
  cases s
  simp only [rename, Region.renameList_eq_map, StateMachine.renameSlot_eq_map]

def Element.rename (f : Renaming) : Element → Element
  | stateMachine m => stateMachine (m.rename f)
  | region r => region (r.rename f)
  | vertex v => vertex (v.rename f)
  | state s => state (s.rename f)
  | pseudostate p => pseudostate (p.rename f)
  | finalState x => finalState (x.rename f)
  | transition t => transition (t.rename f)
  | connectionPointReference c => connectionPointReference (c.rename f)

/-- The values that transitions and states carry keep their IDs. -/
def Entity.rename (f : Renaming) : Entity → Entity
  | element e => element (e.rename f)
  | regionVertex v => regionVertex (v.rename f)
  | x => x

/-! ### What a renaming changes -/

section Fields

variable (f : Renaming)

@[simp] theorem Vertex.id_rename (v : Vertex) : (v.rename f).id = f v.id := rfl

@[simp] theorem Vertex.type_rename (v : Vertex) : (v.rename f).type = v.type := rfl

theorem Vertex.rename_injective : Function.Injective (Vertex.rename f) := by
  intro v w h
  cases v
  cases w
  simpa [rename] using h

@[simp] theorem Pseudostate.toVertex_rename (p : Pseudostate) :
    (p.rename f).toVertex = p.toVertex.rename f := rfl

@[simp] theorem Pseudostate.kind_rename (p : Pseudostate) : (p.rename f).kind = p.kind := rfl

theorem Pseudostate.rename_injective : Function.Injective (Pseudostate.rename f) := by
  intro p q h
  obtain ⟨v, kind⟩ := p
  obtain ⟨w, kind'⟩ := q
  obtain ⟨hshape, rfl⟩ := Pseudostate.mk.inj h
  obtain rfl : v = w := Vertex.rename_injective f hshape
  rfl

@[simp] theorem FinalState.toVertex_rename (x : FinalState) :
    (x.rename f).toVertex = x.toVertex.rename f := rfl

@[simp] theorem ConnectionPointReference.toVertex_rename (x : ConnectionPointReference) :
    (x.rename f).toVertex = x.toVertex.rename f := rfl

@[simp] theorem ConnectionPointReference.points_rename (x : ConnectionPointReference)
    (side : PointSide) : (x.rename f).points side = (x.points side).map (·.rename f) := by
  cases side <;> rfl

@[simp] theorem RegionVertex.id_rename (v : RegionVertex) : (v.rename f).id = f v.id := by
  cases v <;> rfl

@[simp] theorem RegionVertex.isFinalState_rename (v : RegionVertex) :
    (v.rename f).isFinalState = v.isFinalState := by
  cases v <;> rfl

@[simp] theorem RegionVertex.element_rename (v : RegionVertex) :
    (v.rename f).element = v.element.rename f := by
  cases v <;> rfl

@[simp] theorem Transition.id_rename (t : Transition) : (t.rename f).id = f t.id := rfl

@[simp] theorem Transition.kind_rename (t : Transition) : (t.rename f).kind = t.kind := rfl

@[simp] theorem Transition.atEnd_rename (t : Transition) (side : TransitionEnd) :
    (t.rename f).atEnd side = (t.atEnd side).map (·.rename f) := by
  cases side <;> rfl

@[simp] theorem StateMachine.id_rename (m : StateMachine) : (m.rename f).id = f m.id := by
  rw [rename_eq]

@[simp] theorem StateMachine.regions_rename (m : StateMachine) :
    (m.rename f).regions = m.regions.map (·.rename f) := by
  rw [rename_eq]

@[simp] theorem StateMachine.connectionPoints_rename (m : StateMachine) :
    (m.rename f).connectionPoints = m.connectionPoints.map (·.rename f) := by
  rw [rename_eq]

@[simp] theorem StateMachine.isMethod_rename (m : StateMachine) :
    (m.rename f).isMethod = m.isMethod := by
  rw [rename_eq]

@[simp] theorem StateMachine.shared_rename (m : StateMachine) :
    (m.rename f).shared = m.shared := by
  rw [rename_eq]

@[simp] theorem Region.id_rename (r : Region) : (r.rename f).id = f r.id := by
  rw [rename_eq]

@[simp] theorem Region.states_rename (r : Region) :
    (r.rename f).states = r.states.map (·.rename f) := by
  rw [rename_eq]

@[simp] theorem Region.vertices_rename (r : Region) :
    (r.rename f).vertices = r.vertices.map (·.rename f) := by
  rw [rename_eq]

@[simp] theorem Region.transitions_rename (r : Region) :
    (r.rename f).transitions = r.transitions.map (·.rename f) := by
  rw [rename_eq]

@[simp] theorem State.toVertex_rename (s : State) :
    (s.rename f).toVertex = s.toVertex.rename f := by
  rw [rename_eq]

@[simp] theorem State.regions_rename (s : State) :
    (s.rename f).regions = s.regions.map (·.rename f) := by
  rw [rename_eq]

@[simp] theorem State.submachine_rename (s : State) :
    (s.rename f).submachine = s.submachine.map (·.rename f) := by
  rw [rename_eq]

@[simp] theorem State.connections_rename (s : State) :
    (s.rename f).connections = s.connections.map (·.rename f) := by
  rw [rename_eq]

/-- A renaming leaves the flags and the actions of a state as they are. -/
theorem State.rename_frame (s : State) :
    (s.rename f).isSimple = s.isSimple ∧ (s.rename f).isComposite = s.isComposite ∧
      (s.rename f).isOrthogonal = s.isOrthogonal ∧
      (s.rename f).isSubmachineState = s.isSubmachineState ∧ (s.rename f).entry = s.entry ∧
      (s.rename f).exit = s.exit ∧ (s.rename f).doActivity = s.doActivity := by
  rw [rename_eq]
  exact ⟨rfl, rfl, rfl, rfl, rfl, rfl, rfl⟩

end Fields

/-! ### The renaming that changes nothing -/

section Refl

@[simp] theorem Vertex.rename_refl (v : Vertex) : v.rename .refl = v := rfl

@[simp] theorem Pseudostate.rename_refl (p : Pseudostate) : p.rename .refl = p := rfl

@[simp] theorem FinalState.rename_refl (x : FinalState) : x.rename .refl = x := rfl

@[simp] theorem ConnectionPointReference.rename_refl (x : ConnectionPointReference) :
    x.rename .refl = x := by
  simp [rename, Pseudostate.rename_refl]

@[simp] theorem RegionVertex.rename_refl (v : RegionVertex) : v.rename .refl = v := by
  cases v <;> rfl

@[simp] theorem Transition.rename_refl (t : Transition) : t.rename .refl = t := by
  simp [Transition.rename]

mutual

@[simp] theorem StateMachine.rename_refl (m : StateMachine) : m.rename .refl = m := by
  cases m with
  | mk id name regions points isMethod metadata shared =>
    simp [StateMachine.rename, Region.renameList_refl regions]

@[simp] theorem Region.rename_refl (r : Region) : r.rename .refl = r := by
  cases r with
  | mk id name states vertices transitions =>
    simp [Region.rename, State.renameList_refl states]

@[simp] theorem State.rename_refl (s : State) : s.rename .refl = s := by
  cases s with
  | mk shape simple composite orthogonal stands regions sub connections entry exit act =>
    simp [State.rename, Region.renameList_refl regions, StateMachine.renameSlot_refl sub]

theorem StateMachine.renameSlot_refl (m : Option StateMachine) :
    StateMachine.renameSlot .refl m = m := by
  cases m with
  | none => simp [StateMachine.renameSlot]
  | some m => simp [StateMachine.renameSlot, StateMachine.rename_refl m]

theorem Region.renameList_refl (l : List Region) : Region.renameList .refl l = l := by
  cases l with
  | nil => simp [Region.renameList]
  | cons r rest => simp [Region.renameList, Region.rename_refl r, Region.renameList_refl rest]

theorem State.renameList_refl (l : List State) : State.renameList .refl l = l := by
  cases l with
  | nil => simp [State.renameList]
  | cons s rest => simp [State.renameList, State.rename_refl s, State.renameList_refl rest]

end

@[simp] theorem Element.rename_refl (e : Element) : e.rename .refl = e := by
  cases e <;> simp [rename]

@[simp] theorem Entity.rename_refl (x : Entity) : x.rename .refl = x := by
  cases x <;> simp [rename]

end Refl

end Statechart
