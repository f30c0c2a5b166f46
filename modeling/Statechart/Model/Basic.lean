import Statechart.Model.Metadata
import Statechart.Model.Tag

/-! State machine models. A machine owns regions and connection points; a region owns states,
vertices and transitions; a state may own regions again, or stand for a machine defined elsewhere.
A model is a plain value: nothing in it is checked or derived, and every flag is what its author
wrote. -/

namespace Statechart

/-- A condition, used as the guard of a transition. -/
structure Constraint where
  id : String
  name : String := ""
  specification : String
  language : String := ""
deriving DecidableEq, Repr

/-- An action: the effect of a transition, or what a state does on entry, on exit or while active. -/
structure Behavior where
  id : String
  name : String := ""
  specification : String
  language : String := ""
deriving DecidableEq, Repr

structure Trigger where
  id : String
  event : String
deriving DecidableEq, Repr

/-- What a transition can lead from and to. All kinds of vertex share this shape. -/
structure Vertex where
  id : String
  name : String := ""
  type : VertexType
deriving DecidableEq, Repr

structure Pseudostate extends Vertex where
  kind : PseudostateKind
deriving DecidableEq, Repr

structure FinalState extends Vertex
deriving DecidableEq, Repr

/-- Names entry and exit points of the machine that a submachine state stands for. -/
structure ConnectionPointReference extends Vertex where
  entry : List Pseudostate := []
  exit : List Pseudostate := []
deriving DecidableEq, Repr

/-- An entry in the list of vertices of a region. A state is listed there by its shape alone. -/
inductive RegionVertex where
  | vertex (v : Vertex)
  | pseudostate (p : Pseudostate)
  | finalState (f : FinalState)
deriving DecidableEq, Repr

def RegionVertex.shape : RegionVertex → Vertex
  | vertex v => v
  | pseudostate p => p.toVertex
  | finalState f => f.toVertex

def RegionVertex.id (v : RegionVertex) : String := v.shape.id

def RegionVertex.isFinalState : RegionVertex → Bool
  | finalState _ => true
  | _ => false

/-- An empty slot in `source` or `target` means that the end was not set. -/
structure Transition where
  id : String
  name : String := ""
  source : Option Vertex := none
  target : Option Vertex := none
  kind : TransitionKind := .external
  guard : Option Constraint := none
  effect : Option Behavior := none
  triggers : List Trigger := []
deriving DecidableEq, Repr

mutual

structure StateMachine where
  id : String
  name : String := ""
  regions : List Region := []
  connectionPoints : List Pseudostate := []
  /-- Whether the machine is the method of an operation. -/
  isMethod : Bool := false
  metadata : Metadata := {}
  /-- The number of the definition that this machine is, where several states may stand for one
  definition: machines with one number are one machine. A machine held in a single place has none. -/
  shared : Option Nat := none

structure Region where
  id : String
  name : String := ""
  states : List State := []
  vertices : List RegionVertex := []
  transitions : List Transition := []

structure State extends Vertex where
  isSimple : Bool := false
  isComposite : Bool := false
  isOrthogonal : Bool := false
  isSubmachineState : Bool := false
  regions : List Region := []
  submachine : Option StateMachine := none
  connections : List ConnectionPointReference := []
  entry : Option Behavior := none
  exit : Option Behavior := none
  doActivity : Option Behavior := none

end

instance : Inhabited StateMachine := ⟨{ id := "" }⟩

instance : Inhabited Region := ⟨{ id := "" }⟩

end Statechart
