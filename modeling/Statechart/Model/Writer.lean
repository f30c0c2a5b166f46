import Statechart.Model.Basic

/-! Models as JSON. Every field is written, empty slots as `null`, and a tag as its own text. -/

namespace Statechart

def VertexType.toJson (t : VertexType) : Json := .str t.text

def Constraint.toJson (c : Constraint) : Json :=
  .obj [("id", .str c.id), ("name", .str c.name), ("specification", .str c.specification),
    ("language", .str c.language)]

def Behavior.toJson (b : Behavior) : Json :=
  .obj [("id", .str b.id), ("name", .str b.name), ("specification", .str b.specification),
    ("language", .str b.language)]

def Trigger.toJson (t : Trigger) : Json := .obj [("id", .str t.id), ("event", .str t.event)]

/-- The fields of a vertex shape, which stand among those of the element that has it. -/
def Vertex.toFields (v : Vertex) : List (String × Json) :=
  [("id", .str v.id), ("name", .str v.name), ("type", .str v.type.text)]

def Vertex.toJson (v : Vertex) : Json := .obj v.toFields

def Pseudostate.toJson (p : Pseudostate) : Json :=
  .obj (p.toFields ++ [("kind", .str p.kind.text)])

def FinalState.toJson (f : FinalState) : Json := .obj f.toFields

def ConnectionPointReference.toJson (c : ConnectionPointReference) : Json :=
  .obj (c.toFields ++ [("entry", .arr (c.entry.map (·.toJson))),
    ("exit", .arr (c.exit.map (·.toJson)))])

def RegionVertex.toJson : RegionVertex → Json
  | vertex v => .obj [("vertex", v.toJson)]
  | pseudostate p => .obj [("pseudostate", p.toJson)]
  | finalState f => .obj [("finalState", f.toJson)]

def Transition.toJson (t : Transition) : Json :=
  .obj [("id", .str t.id), ("name", .str t.name), ("source", .ofOption Vertex.toJson t.source),
    ("target", .ofOption Vertex.toJson t.target), ("kind", .str t.kind.text),
    ("guard", .ofOption Constraint.toJson t.guard), ("effect", .ofOption Behavior.toJson t.effect),
    ("triggers", .arr (t.triggers.map (·.toJson)))]

mutual

def StateMachine.toJson (m : StateMachine) : Json :=
  match m with
  | { regions, .. } =>
    .obj [("id", .str m.id), ("name", .str m.name), ("regions", .arr (Region.toJsonList regions)),
      ("connectionPoints", .arr (m.connectionPoints.map (·.toJson))),
      ("isMethod", .bool m.isMethod), ("metadata", .obj m.metadata.entries)]

def Region.toJson (r : Region) : Json :=
  match r with
  | { states, .. } =>
    .obj [("id", .str r.id), ("name", .str r.name), ("states", .arr (State.toJsonList states)),
      ("vertices", .arr (r.vertices.map (·.toJson))),
      ("transitions", .arr (r.transitions.map (·.toJson)))]

def State.toJson (s : State) : Json :=
  match s with
  | { regions, submachine, .. } =>
    .obj (s.toFields ++ [("isSimple", .bool s.isSimple), ("isComposite", .bool s.isComposite),
      ("isOrthogonal", .bool s.isOrthogonal), ("isSubmachineState", .bool s.isSubmachineState),
      ("regions", .arr (Region.toJsonList regions)),
      ("submachine", StateMachine.toJsonSlot submachine),
      ("connections", .arr (s.connections.map (·.toJson))),
      ("entry", .ofOption Behavior.toJson s.entry), ("exit", .ofOption Behavior.toJson s.exit),
      ("doActivity", .ofOption Behavior.toJson s.doActivity)])

def StateMachine.toJsonSlot : Option StateMachine → Json
  | none => .null
  | some m => m.toJson

def Region.toJsonList : List Region → List Json
  | [] => []
  | r :: rest => r.toJson :: Region.toJsonList rest

def State.toJsonList : List State → List Json
  | [] => []
  | s :: rest => s.toJson :: State.toJsonList rest

end

theorem Region.toJsonList_eq_map (regions : List Region) :
    toJsonList regions = regions.map (·.toJson) := by
  induction regions with
  | nil => simp [toJsonList]
  | cons r rest ih => simp [toJsonList, ih]

theorem State.toJsonList_eq_map (states : List State) :
    toJsonList states = states.map (·.toJson) := by
  induction states with
  | nil => simp [toJsonList]
  | cons s rest ih => simp [toJsonList, ih]

end Statechart
