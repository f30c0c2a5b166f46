import Statechart.Element
import Statechart.Model.Reader
import Statechart.Model.Sharing
import Statechart.Model.Writer
import Statechart.Wellformed.Tree

/-! Everything that can be read, written and examined by itself: the elements of a model, an entry
in a list of vertices, and the values that transitions and states carry. -/

namespace Statechart

namespace Element

def toJson : Element → Json
  | stateMachine m => m.toJson
  | region r => r.toJson
  | vertex v => v.toJson
  | state s => s.toJson
  | pseudostate p => p.toJson
  | finalState f => f.toJson
  | transition t => t.toJson
  | connectionPointReference c => c.toJson

def breaches (c : Context) : Element → Breaches
  | stateMachine m => m.breaches c
  | region r => r.breaches c
  | vertex v => v.breaches c
  | state s => s.breaches c
  | pseudostate p => p.breaches c
  | finalState f => f.breaches c
  | transition t => t.breaches c
  | connectionPointReference x => x.breaches c

/-- Passes each machine that a state inside the element stands for through `f`. -/
def mapSubmachinesM {m : Type → Type} [Monad m] (f : StateMachine → m StateMachine) :
    Element → m Element
  | stateMachine x => stateMachine <$> x.mapSubmachinesM f
  | region r => region <$> r.mapSubmachinesM f
  | state s => state <$> s.mapSubmachinesM f
  | e => pure e

/-- Puts shared definitions in the places of their placeholders. -/
def link (definitions : List StateMachine) (e : Element) : Element :=
  Id.run (e.mapSubmachinesM fun x => pure (Sharing.resolve definitions x))

end Element

inductive Entity where
  | element (e : Element)
  | regionVertex (v : RegionVertex)
  | constraint (c : Constraint)
  | behavior (b : Behavior)
  | trigger (t : Trigger)
deriving DecidableEq

namespace Entity

/-- The readers by the names of what they read. -/
def readers : List (String × (Json → Option Entity)) :=
  [("StateMachine", fun j => (StateMachine.ofJson? j).map fun m => element (.stateMachine m)),
    ("Region", fun j => (Region.ofJson? j).map fun r => element (.region r)),
    ("Vertex", fun j => (Vertex.ofJson? j).map fun v => element (.vertex v)),
    ("State", fun j => (State.ofJson? j).map fun s => element (.state s)),
    ("Pseudostate", fun j => (Pseudostate.ofJson? j).map fun p => element (.pseudostate p)),
    ("FinalState", fun j => (FinalState.ofJson? j).map fun f => element (.finalState f)),
    ("Transition", fun j => (Transition.ofJson? j).map fun t => element (.transition t)),
    ("ConnectionPointReference", fun j =>
      (ConnectionPointReference.ofJson? j).map fun c => element (.connectionPointReference c)),
    ("Constraint", fun j => (Constraint.ofJson? j).map constraint),
    ("Behavior", fun j => (Behavior.ofJson? j).map behavior),
    ("Trigger", fun j => (Trigger.ofJson? j).map trigger),
    ("RegionVertex", fun j => (RegionVertex.ofJson? j).map regionVertex)]

def toJson : Entity → Json
  | element e => e.toJson
  | regionVertex v => v.toJson
  | constraint c => c.toJson
  | behavior b => b.toJson
  | trigger t => t.toJson

/-- The element that the entity is or holds. -/
def element? : Entity → Option Element
  | element e => some e
  | regionVertex v => some v.element
  | _ => none

/-- An entry in a list of vertices has the type of what it holds. -/
def type : Entity → EntityType
  | element e => e.type
  | regionVertex v => v.element.type
  | constraint _ => .constraint
  | behavior _ => .behavior
  | trigger _ => .trigger

def breaches (c : Context) : Entity → Breaches
  | element e => e.breaches c
  | regionVertex v => v.breaches c
  | constraint x => x.breaches c
  | behavior x => x.breaches c
  | trigger x => x.breaches c

def mapSubmachinesM {m : Type → Type} [Monad m] (f : StateMachine → m StateMachine) :
    Entity → m Entity
  | element e => element <$> e.mapSubmachinesM f
  | x => pure x

/-- Puts shared definitions in the places of their placeholders. -/
def link (definitions : List StateMachine) : Entity → Entity
  | element e => element (e.link definitions)
  | x => x

/-- The entity with plain zeros in the places of negative ones among the notes of its machines. -/
def plainZeros (e : Entity) : Entity :=
  let plain (m : StateMachine) : StateMachine := { m with metadata := m.metadata.map (·.plainZeros) }
  match Id.run (e.mapSubmachinesM fun m => pure (plain m)) with
  | element (.stateMachine m) => element (.stateMachine (plain m))
  | e => e

/-- Whether two entities have the same values, the two zeros being one. -/
def isSame (a b : Entity) : Bool := a.plainZeros = b.plainZeros

end Entity

end Statechart
