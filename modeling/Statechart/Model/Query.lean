import Statechart.Model.Basic

/-! Looking elements up. Where an ID is used more than once the first element with it is found. -/

namespace Statechart

/-- An end of a transition. -/
inductive TransitionEnd where
  | source
  | target
deriving DecidableEq, Repr

namespace TransitionEnd

def all : List TransitionEnd := [source, target]

def field : TransitionEnd → String
  | source => "Source"
  | target => "Target"

def word : TransitionEnd → String
  | source => "source"
  | target => "target"

end TransitionEnd

namespace Transition

def atEnd (t : Transition) : TransitionEnd → Option Vertex
  | .source => t.source
  | .target => t.target

def sourceId? (t : Transition) : Option String := t.source.map (·.id)

def targetId? (t : Transition) : Option String := t.target.map (·.id)

end Transition

/-- A side of a connection point reference. -/
inductive PointSide where
  | entry
  | exit
deriving DecidableEq, Repr

namespace PointSide

def all : List PointSide := [entry, exit]

def field : PointSide → String
  | entry => "Entry"
  | exit => "Exit"

def word : PointSide → String
  | entry => "entry"
  | exit => "exit"

/-- The kind of pseudostate that belongs on the side. -/
def kind : PointSide → PseudostateKind
  | entry => .entryPoint
  | exit => .exitPoint

end PointSide

def ConnectionPointReference.points (c : ConnectionPointReference) : PointSide → List Pseudostate
  | .entry => c.entry
  | .exit => c.exit

def StateMachine.connectionPoint? (m : StateMachine) (id : String) : Option Pseudostate :=
  m.connectionPoints.find? (·.id = id)

namespace Region

def vertex? (r : Region) (id : String) : Option RegionVertex := r.vertices.find? (·.id = id)

def state? (r : Region) (id : String) : Option State := r.states.find? (·.id = id)

/-- Whether the region lists a vertex or a state with this ID. -/
def hasMember (r : Region) (id : String) : Bool := (r.vertex? id).isSome || (r.state? id).isSome

/-- The positions of the pseudostates of a kind among the vertices. -/
def pseudostateIndices (r : Region) (kind : PseudostateKind) : List Nat :=
  r.vertices.zipIdx.filterMap fun entry =>
    match entry.1 with
    | .pseudostate p => if p.kind = kind then some entry.2 else none
    | _ => none

/-- The IDs of the initial pseudostates among the vertices. -/
def initialIds (r : Region) : List String :=
  r.vertices.filterMap fun
    | .pseudostate p => if p.kind = .initial then some p.id else none
    | _ => none

end Region

end Statechart
