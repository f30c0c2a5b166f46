import Statechart.Finding.Basic
import Statechart.Locator
import Statechart.Model.Equality
import Statechart.Model.Query

/-! The elements of a model that have a place of their own in it, and the parts of each: what it
holds in its lists, and the machine that it stands for. A part is smaller than its owner, so
following parts ends even where machines are shared. -/

namespace Statechart

inductive Element where
  | stateMachine (m : StateMachine)
  | region (r : Region)
  | vertex (v : Vertex)
  | state (s : State)
  | pseudostate (p : Pseudostate)
  | finalState (f : FinalState)
  | transition (t : Transition)
  | connectionPointReference (c : ConnectionPointReference)
deriving DecidableEq

def RegionVertex.element : RegionVertex → Element
  | vertex v => .vertex v
  | pseudostate p => .pseudostate p
  | finalState f => .finalState f

/-- How an element is held by its owner. -/
inductive Role where
  | member
  /-- A connection point in the list of a machine. -/
  | machinePoint
  /-- A connection point that a connection point reference names. -/
  | referencePoint
  /-- The machine that a state stands for. -/
  | submachine
deriving DecidableEq, Repr

def Role.isPoint : Role → Bool
  | machinePoint | referencePoint => true
  | member | submachine => false

structure Part where
  role : Role
  /-- The field of the owner, with the position in its list. -/
  step : Segment
  element : Element

/-- The members of a list as parts. -/
def Part.ofList {α : Type} (role : Role) (field : String) (element : α → Element) (l : List α) :
    List Part :=
  l.zipIdx.map fun x => ⟨role, .item field x.2, element x.1⟩

theorem Part.exists_of_mem_ofList {α : Type} {role : Role} {field : String} {element : α → Element}
    {l : List α} {p : Part} (h : p ∈ Part.ofList role field element l) :
    ∃ x ∈ l, p.element = element x := by
  obtain ⟨⟨x, i⟩, hx, rfl⟩ := List.mem_map.1 h
  exact ⟨x, List.fst_mem_of_mem_zipIdx hx, rfl⟩

namespace Element

def id : Element → String
  | stateMachine m => m.id
  | region r => r.id
  | vertex v => v.id
  | state s => s.id
  | pseudostate p => p.id
  | finalState f => f.id
  | transition t => t.id
  | connectionPointReference c => c.id

def type : Element → EntityType
  | stateMachine _ => .stateMachine
  | region _ => .region
  | vertex _ => .vertex
  | state _ => .state
  | pseudostate _ => .pseudostate
  | finalState _ => .finalState
  | transition _ => .transition
  | connectionPointReference _ => .connectionPointReference

/-- The vertex shape, of the elements that have one. -/
def shape? : Element → Option Vertex
  | vertex v => some v
  | state s => some s.toVertex
  | pseudostate p => some p.toVertex
  | finalState f => some f.toVertex
  | connectionPointReference c => some c.toVertex
  | stateMachine _ | region _ | transition _ => none

/-- A state and a plain vertex with exactly the shape of that state, in either order. -/
def isListingPair : Element → Element → Bool
  | state s, vertex v | vertex v, state s => s.toVertex = v
  | _, _ => false

def parts : Element → List Part
  | stateMachine m =>
    Part.ofList .member "Regions" region m.regions
      ++ Part.ofList .machinePoint "ConnectionPoints" pseudostate m.connectionPoints
  | region r =>
    Part.ofList .member "States" state r.states
      ++ Part.ofList .member "Vertices" RegionVertex.element r.vertices
      ++ Part.ofList .member "Transitions" transition r.transitions
  | state s =>
    Part.ofList .member "Regions" region s.regions
      ++ Part.ofList .member "Connections" connectionPointReference s.connections
      ++ s.submachine.toList.map fun m => ⟨.submachine, .field "Submachine", stateMachine m⟩
  | connectionPointReference c =>
    Part.ofList .referencePoint "Entry" pseudostate c.entry
      ++ Part.ofList .referencePoint "Exit" pseudostate c.exit
  | vertex _ | pseudostate _ | finalState _ | transition _ => []

theorem sizeOf_regionVertex_element (v : RegionVertex) : sizeOf v.element = sizeOf v := by
  cases v <;> simp [RegionVertex.element]

theorem sizeOf_of_mem_parts {e : Element} {p : Part} (h : p ∈ e.parts) :
    sizeOf p.element < sizeOf e := by
  cases e with
  | stateMachine m =>
    cases m
    simp only [parts, List.mem_append] at h
    rcases h with h | h <;> obtain ⟨x, hx, heq⟩ := Part.exists_of_mem_ofList h <;>
      have := List.sizeOf_lt_of_mem hx <;> simp [heq] <;> omega
  | region r =>
    cases r
    simp only [parts, List.mem_append] at h
    rcases h with (h | h) | h <;> obtain ⟨x, hx, heq⟩ := Part.exists_of_mem_ofList h <;>
      have := List.sizeOf_lt_of_mem hx <;> simp [heq, sizeOf_regionVertex_element] <;> omega
  | state s =>
    cases s
    simp only [parts, List.mem_append] at h
    rcases h with (h | h) | h
    · obtain ⟨x, hx, heq⟩ := Part.exists_of_mem_ofList h
      have := List.sizeOf_lt_of_mem hx
      simp [heq]
      omega
    · obtain ⟨x, hx, heq⟩ := Part.exists_of_mem_ofList h
      have := List.sizeOf_lt_of_mem hx
      simp [heq]
      omega
    · obtain ⟨m, hm, rfl⟩ := List.mem_map.1 h
      rw [Option.mem_toList.1 hm]
      simp
      omega
  | connectionPointReference c =>
    cases c
    simp only [parts, List.mem_append] at h
    rcases h with h | h <;> obtain ⟨x, hx, heq⟩ := Part.exists_of_mem_ofList h <;>
      have := List.sizeOf_lt_of_mem hx <;> simp [heq] <;> omega
  | vertex v => cases h
  | pseudostate p => cases h
  | finalState f => cases h
  | transition t => cases h

end Element

end Statechart
