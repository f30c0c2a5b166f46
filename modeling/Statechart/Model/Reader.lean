import Statechart.Json.Record
import Statechart.Model.Basic

/-! Models from JSON. A field that has a default may be left out, and unknown fields are passed
over. An element that has a vertex shape is written as an object with the fields of its shape among
its own; the other records may be arrays of their field values as well. -/

namespace Statechart

def Constraint.ofJson? (j : Json) : Option Constraint := do
  let fields ← j.record? ["id", "name", "specification", "language"]
  return {
    id := ← fields.required "id" fun x => x.1.str?
    name := ← fields.optional "name" "" fun x => x.1.str?
    specification := ← fields.required "specification" fun x => x.1.str?
    language := ← fields.optional "language" "" fun x => x.1.str? }

def Behavior.ofJson? (j : Json) : Option Behavior := do
  let fields ← j.record? ["id", "name", "specification", "language"]
  return {
    id := ← fields.required "id" fun x => x.1.str?
    name := ← fields.optional "name" "" fun x => x.1.str?
    specification := ← fields.required "specification" fun x => x.1.str?
    language := ← fields.optional "language" "" fun x => x.1.str? }

def Trigger.ofJson? (j : Json) : Option Trigger := do
  let fields ← j.record? ["id", "event"]
  return {
    id := ← fields.required "id" fun x => x.1.str?
    event := ← fields.required "event" fun x => x.1.str? }

def Vertex.ofRecord? {j : Json} (fields : j.Record) : Option Vertex := do
  return {
    id := ← fields.required "id" fun x => x.1.str?
    name := ← fields.optional "name" "" fun x => x.1.str?
    type := ← fields.required "type" fun x => x.1.str?.map .ofText }

def Vertex.ofJson? (j : Json) : Option Vertex := do
  Vertex.ofRecord? (← j.record? ["id", "name", "type"])

def Pseudostate.ofJson? (j : Json) : Option Pseudostate := do
  let fields ← j.record? []
  return {
    toVertex := ← Vertex.ofRecord? fields
    kind := ← fields.required "kind" fun x => x.1.str?.map .ofText }

def FinalState.ofJson? (j : Json) : Option FinalState := do
  let fields ← j.record? []
  return { toVertex := ← Vertex.ofRecord? fields }

def ConnectionPointReference.ofJson? (j : Json) : Option ConnectionPointReference := do
  let fields ← j.record? []
  return {
    toVertex := ← Vertex.ofRecord? fields
    entry := ← fields.list "entry" fun x => Pseudostate.ofJson? x.1
    exit := ← fields.list "exit" fun x => Pseudostate.ofJson? x.1 }

/-- The one key of the object says which kind of vertex its value is. -/
def RegionVertex.ofJson? : Json → Option RegionVertex
  | .obj [("vertex", x)] => (Vertex.ofJson? x).map .vertex
  | .obj [("pseudostate", x)] => (Pseudostate.ofJson? x).map .pseudostate
  | .obj [("finalState", x)] => (FinalState.ofJson? x).map .finalState
  | _ => none

def Transition.ofJson? (j : Json) : Option Transition := do
  let fields ← j.record? ["id", "name", "source", "target", "kind", "guard", "effect", "triggers"]
  return {
    id := ← fields.required "id" fun x => x.1.str?
    name := ← fields.optional "name" "" fun x => x.1.str?
    source := ← fields.slot "source" fun x => Vertex.ofJson? x.1
    target := ← fields.slot "target" fun x => Vertex.ofJson? x.1
    kind := ← fields.optional "kind" .external fun x => x.1.str?.map .ofText
    guard := ← fields.slot "guard" fun x => Constraint.ofJson? x.1
    effect := ← fields.slot "effect" fun x => Behavior.ofJson? x.1
    triggers := ← fields.list "triggers" fun x => Trigger.ofJson? x.1 }

def Metadata.ofJson? : Json → Option Metadata
  | .obj fields => some (.ofFields fields)
  | _ => none

mutual

def StateMachine.ofJson? (j : Json) : Option StateMachine := do
  let fields ← j.record? ["id", "name", "regions", "connectionPoints", "isMethod", "metadata"]
  return {
    id := ← fields.required "id" fun x => x.1.str?
    name := ← fields.optional "name" "" fun x => x.1.str?
    regions := ← fields.list "regions" fun x => Region.ofJson? x.1
    connectionPoints := ← fields.list "connectionPoints" fun x => Pseudostate.ofJson? x.1
    isMethod := ← fields.optional "isMethod" false fun x => x.1.bool?
    metadata := ← fields.optional "metadata" {} fun x => Metadata.ofJson? x.1 }
termination_by sizeOf j
decreasing_by exact x.2

def Region.ofJson? (j : Json) : Option Region := do
  let fields ← j.record? ["id", "name", "states", "vertices", "transitions"]
  return {
    id := ← fields.required "id" fun x => x.1.str?
    name := ← fields.optional "name" "" fun x => x.1.str?
    states := ← fields.list "states" fun x => State.ofJson? x.1
    vertices := ← fields.list "vertices" fun x => RegionVertex.ofJson? x.1
    transitions := ← fields.list "transitions" fun x => Transition.ofJson? x.1 }
termination_by sizeOf j
decreasing_by exact x.2

def State.ofJson? (j : Json) : Option State := do
  let fields ← j.record? []
  return {
    toVertex := ← Vertex.ofRecord? fields
    isSimple := ← fields.optional "isSimple" false fun x => x.1.bool?
    isComposite := ← fields.optional "isComposite" false fun x => x.1.bool?
    isOrthogonal := ← fields.optional "isOrthogonal" false fun x => x.1.bool?
    isSubmachineState := ← fields.optional "isSubmachineState" false fun x => x.1.bool?
    regions := ← fields.list "regions" fun x => Region.ofJson? x.1
    submachine := ← fields.slot "submachine" fun x => StateMachine.ofJson? x.1
    connections := ← fields.list "connections" fun x => ConnectionPointReference.ofJson? x.1
    entry := ← fields.slot "entry" fun x => Behavior.ofJson? x.1
    exit := ← fields.slot "exit" fun x => Behavior.ofJson? x.1
    doActivity := ← fields.slot "doActivity" fun x => Behavior.ofJson? x.1 }
termination_by sizeOf j
decreasing_by all_goals exact x.2

end

end Statechart
