/-! Findings: what an examination of a model reports. A finding says what kind of problem there is,
on which field of which type of element, and where that element stands. -/

namespace Statechart

inductive FindingKind where
  /-- A field that must be set is blank or empty. -/
  | required
  /-- A value lies outside its domain. -/
  | invalid
  | constraint
  /-- A reference leads nowhere, or the slot for one is empty. -/
  | reference
  /-- There are too many or too few of something. -/
  | multiplicity
deriving DecidableEq, Repr

namespace FindingKind

/-- The kinds in the order of reports. -/
def all : List FindingKind := [required, invalid, constraint, reference, multiplicity]

def text : FindingKind → String
  | required => "Required"
  | invalid => "Invalid"
  | constraint => "Constraint"
  | reference => "Reference"
  | multiplicity => "Multiplicity"

def ofText? (s : String) : Option FindingKind := all.find? (·.text = s)

end FindingKind

inductive EntityType where
  | stateMachine
  | region
  | vertex
  | state
  | pseudostate
  | finalState
  | transition
  | connectionPointReference
  | constraint
  | behavior
  | trigger
deriving DecidableEq, Repr

namespace EntityType

def all : List EntityType :=
  [stateMachine, region, vertex, state, pseudostate, finalState, transition,
    connectionPointReference, constraint, behavior, trigger]

def text : EntityType → String
  | stateMachine => "StateMachine"
  | region => "Region"
  | vertex => "Vertex"
  | state => "State"
  | pseudostate => "Pseudostate"
  | finalState => "FinalState"
  | transition => "Transition"
  | connectionPointReference => "ConnectionPointReference"
  | constraint => "Constraint"
  | behavior => "Behavior"
  | trigger => "Trigger"

def ofText? (s : String) : Option EntityType := all.find? (·.text = s)

end EntityType

structure Finding where
  kind : FindingKind
  type : EntityType
  /-- The attribute of the element that the finding is about. -/
  field : String
  message : String
  /-- The text of the element's locator. -/
  path : String := ""
deriving DecidableEq, Repr

def Finding.text (f : Finding) : String :=
  f.kind.text ++ " error on " ++ f.type.text ++ "." ++ f.field
    ++ (if f.path = "" then "" else " at " ++ f.path) ++ ": " ++ f.message

end Statechart
