import Statechart.Model.Basic

/-! Assembling models step by step. Each step keeps the flags of a state and the vertex list of a
region in agreement with what they hold. -/

namespace Statechart

def Pseudostate.named (id name : String) (kind : PseudostateKind) : Pseudostate :=
  { id, name, type := .pseudostate, kind }

def Pseudostate.initial (id : String) : Pseudostate := .named id "" .initial

def FinalState.named (id name : String) : FinalState := { id, name, type := .finalState }

namespace ConnectionPointReference

def named (id name : String) : ConnectionPointReference := { id, name, type := .pseudostate }

def addEntry (c : ConnectionPointReference) (p : Pseudostate) : ConnectionPointReference :=
  { c with entry := c.entry ++ [p] }

def addExit (c : ConnectionPointReference) (p : Pseudostate) : ConnectionPointReference :=
  { c with exit := c.exit ++ [p] }

end ConnectionPointReference

namespace Transition

def between (id : String) (source target : Vertex) : Transition :=
  { id, source := some source, target := some target }

def addTrigger (t : Transition) (trigger : Trigger) : Transition :=
  { t with triggers := t.triggers ++ [trigger] }

end Transition

namespace State

def simple (id name : String) : State := { id, name, type := .state, isSimple := true }

/-- A state that owns a region is composite, and orthogonal from its second region on. -/
def addRegion (s : State) (r : Region) : State :=
  { s with
    regions := s.regions ++ [r]
    isSimple := false
    isComposite := true
    isOrthogonal := decide (2 ≤ (s.regions ++ [r]).length) }

/-- Makes the state stand for a machine. -/
def setSubmachine (s : State) (m : StateMachine) : State :=
  { s with submachine := some m, isSubmachineState := true, isSimple := false }

def addConnection (s : State) (c : ConnectionPointReference) : State :=
  { s with connections := s.connections ++ [c] }

def setEntry (s : State) (b : Behavior) : State := { s with entry := some b }

def setExit (s : State) (b : Behavior) : State := { s with exit := some b }

def setDoActivity (s : State) (b : Behavior) : State := { s with doActivity := some b }

end State

namespace Region

/-- Adds a state and lists its shape among the vertices. -/
def addState (r : Region) (s : State) : Region :=
  { r with states := r.states ++ [s], vertices := r.vertices ++ [.vertex s.toVertex] }

def addVertex (r : Region) (v : RegionVertex) : Region := { r with vertices := r.vertices ++ [v] }

def addTransition (r : Region) (t : Transition) : Region :=
  { r with transitions := r.transitions ++ [t] }

end Region

namespace StateMachine

def addRegion (m : StateMachine) (r : Region) : StateMachine :=
  { m with regions := m.regions ++ [r] }

def addConnectionPoint (m : StateMachine) (p : Pseudostate) : StateMachine :=
  { m with connectionPoints := m.connectionPoints ++ [p] }

def asMethod (m : StateMachine) : StateMachine := { m with isMethod := true }

def putMetadata (m : StateMachine) (key : String) (value : Json) : StateMachine :=
  { m with metadata := m.metadata.insert key value }

end StateMachine

end Statechart
