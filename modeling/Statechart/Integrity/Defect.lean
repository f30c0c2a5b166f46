import Statechart.Finding.Located

/-! What can be wrong with the way the elements of a model hang together, and how it is worded. -/

namespace Statechart

/-- The two relations that must not run in a circle: owning, and standing for a machine. -/
inductive Relation where
  | containment
  | submachine
deriving DecidableEq, Repr

namespace Relation

def word : Relation → String
  | containment => "containment"
  | submachine => "submachine"

def field : Relation → String
  | containment => "Containment"
  | submachine => "Submachine"

end Relation

inductive Defect where
  | noId
  /-- The ID belongs to an element of the type and at the place given. -/
  | duplicateId (id : String) (first : EntityType) (place : Locator)
  | unset (field : String)
  | unknownTarget (field target : String)
  | noBackReference (source target : String)
  | cannotReference (source : String) (targetType : EntityType) (target : String)
  | cannotContain (owner : String) (partType : EntityType) (part : String)
  | cannotStandFor (state : String) (machineType : EntityType) (machine : String)
  /-- The IDs along the cycle, the first again at the end. -/
  | cycle (relation : Relation) (nodes : List String)
  /-- The path of a search below an element that was broken off at the limit. -/
  | tooDeep (relation : Relation) (id : String) (limit : Nat) (path : List String)
deriving DecidableEq, Repr

namespace Defect

def kind : Defect → FindingKind
  | noId => .required
  | unset _ | unknownTarget _ _ => .reference
  | _ => .constraint

def field : Defect → String
  | noId | duplicateId _ _ _ => "ID"
  | unset field | unknownTarget field _ => field
  | noBackReference _ _ | cannotReference _ _ _ => "References"
  | cannotContain _ _ _ => "Containment"
  | cannotStandFor _ _ _ => "Submachine"
  | cycle relation _ | tooDeep relation _ _ _ => relation.field

def arrows (nodes : List String) : String := " -> ".intercalate nodes

/-- The wording, on an element of the type given. -/
def message (type : EntityType) : Defect → String
  | noId => s!"{type.text} without an ID cannot be placed in the model graph"
  | duplicateId id first place =>
    s!"duplicate ID '{id}': already used by {first.text} at " ++ Locator.label place.text
  | unset field => s!"{field} is not set"
  | unknownTarget field target => s!"{field} references unknown ID '{target}'"
  | noBackReference source target =>
    s!"reference from '{source}' to '{target}' has no matching back-reference"
  | cannotReference source targetType target =>
    s!"{type.text} '{source}' cannot reference {targetType.text} '{target}'"
  | cannotContain owner partType part =>
    s!"{type.text} '{owner}' cannot contain {partType.text} '{part}'"
  | cannotStandFor state machineType machine =>
    s!"{type.text} '{state}' cannot use {machineType.text} '{machine}' as a submachine"
  | cycle relation nodes => s!"{relation.word} cycle detected: " ++ arrows nodes
  | tooDeep relation id limit path =>
    s!"{relation.word} nesting below '{id}' exceeds {limit} levels, treating it as cycle-like: "
      ++ arrows path

instance : Cause Defect where
  kind := kind
  field := field
  message := message

end Defect

abbrev Defects := List (Located Defect)

end Statechart
