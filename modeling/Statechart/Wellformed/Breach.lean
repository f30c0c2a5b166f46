import Statechart.Context
import Statechart.Finding.Located
import Statechart.Model.Query
import Statechart.Text

/-! What can be wrong with an element by itself, or with an element among those that its owner
holds, and how it is worded. -/

namespace Statechart

inductive Breach where
  | blank (field : String)
  | unknownVertexType (raw : String)
  | wrongVertexType (id : String) (expected found : VertexType)
  | unknownPseudostateKind (raw : String)
  | historyOutsideRegion (kind : PseudostateKind) (id : String)
  | connectionPointInRegion (kind : PseudostateKind) (id region : String)
  | noPoints (id : String)
  | wrongPointKind (side : PointSide) (found : PseudostateKind)
  | noEnd (side : TransitionEnd) (transition : String)
  | unknownTransitionKind (raw : String)
  | internalBetween (transition source target : String)
  | simpleAndComposite (state : String)
  | compositeWithoutRegions (state : String)
  | regionsWithoutComposite (state : String) (count : Nat)
  | orthogonalNotComposite (state : String)
  | orthogonalWithFewRegions (state : String) (count : Nat)
  | submachineNotDeclared (state submachine : String)
  | connectionsNotDeclared (state : String)
  | submachineMissing (state : String)
  | submachineEnclosing (state submachine : String)
  | submachineWithRegions (state : String)
  | submachineComposite (state : String)
  /-- A connection point reference names a point that the submachine does not have. -/
  | pointNotDeclared (side : PointSide) (position : Nat) (point submachine : String)
  | severalInitial (region : String) (indices : List Nat)
  /-- More pseudostates of a kind than good practice has. -/
  | severalAdvised (region : String) (kind : PseudostateKind) (indices : List Nat)
  | stateNotListed (state region : String)
  | endOutsideRegion (side : TransitionEnd) (vertex region : String)
  | finalSource (vertex transition : String)
  | localFromSimple (transition state : String)
  | initialTarget (vertex : String)
  | initialSources (vertex : String) (count : Nat)
  | noRegions
  | methodWithPoints (machine : String) (count : Nat)
  | notConnectionPoint (id : String) (found : PseudostateKind)
deriving DecidableEq, Repr

namespace Breach

def kind : Breach → FindingKind
  | blank _ | noEnd _ _ => .required
  | unknownVertexType _ | unknownPseudostateKind _ | unknownTransitionKind _ => .invalid
  | pointNotDeclared _ _ _ _ => .reference
  | noPoints _ | severalInitial _ _ | severalAdvised _ _ _ | initialSources _ _ | noRegions =>
    .multiplicity
  | _ => .constraint

/-- The attribute that a breach is about. -/
def field : Breach → String
  | blank field => field
  | unknownVertexType _ | wrongVertexType _ _ _ => "Type"
  | unknownPseudostateKind _ | historyOutsideRegion _ _ | connectionPointInRegion _ _ _
  | wrongPointKind _ _ | unknownTransitionKind _ | internalBetween _ _ _ | localFromSimple _ _
  | notConnectionPoint _ _ => "Kind"
  | noPoints _ => "Entry"
  | noEnd side _ | endOutsideRegion side _ _ => side.field
  | simpleAndComposite _ | submachineComposite _ => "IsComposite"
  | compositeWithoutRegions _ | regionsWithoutComposite _ _ | orthogonalWithFewRegions _ _
  | submachineWithRegions _ | noRegions => "Regions"
  | orthogonalNotComposite _ => "IsOrthogonal"
  | submachineNotDeclared _ _ | submachineMissing _ | submachineEnclosing _ _ => "Submachine"
  | connectionsNotDeclared _ => "Connections"
  | pointNotDeclared side position _ _ => (Segment.item side.field position).text
  | severalInitial _ _ | severalAdvised _ _ _ | stateNotListed _ _ => "Vertices"
  | finalSource _ _ => "Source"
  | initialTarget _ | initialSources _ _ => "Transitions"
  | methodWithPoints _ _ => "ConnectionPoints"

def indexList (indices : List Nat) : String := "[" ++ ", ".intercalate (indices.map toString) ++ "]"

/-- The wording, on an element of the type given. -/
def message (type : EntityType) : Breach → String
  | blank field => s!"{field} is required"
  | unknownVertexType raw => s!"vertex type '{raw}' is not one of state, pseudostate, finalstate"
  | wrongVertexType id expected found =>
    s!"{type.text} '{id}' must have type '{expected.text}', found '{found.text}'"
  | unknownPseudostateKind raw => s!"pseudostate kind '{raw}' is not recognized"
  | historyOutsideRegion kind id => s!"{kind.text} pseudostate '{id}' must be contained in a region"
  | connectionPointInRegion kind id region =>
    s!"{kind.text} pseudostate '{id}' belongs among a state machine's connection points, "
      ++ s!"not in region '{region}'"
  | noPoints id =>
    s!"connection point reference '{id}' must reference at least one entry or exit point"
  | wrongPointKind side found =>
    s!"{side.field} of a connection point reference must be an {side.kind.text} pseudostate, "
      ++ s!"found '{found.text}'"
  | noEnd side transition => s!"transition '{transition}' must have a {side.word}"
  | unknownTransitionKind raw =>
    s!"transition kind '{raw}' is not one of external, internal, local"
  | internalBetween transition source target =>
    s!"internal transition '{transition}' must have the same source and target, "
      ++ s!"found '{source}' -> '{target}'"
  | simpleAndComposite state => s!"state '{state}' cannot be both simple and composite"
  | compositeWithoutRegions state => s!"composite state '{state}' must own at least one region"
  | regionsWithoutComposite state count =>
    s!"non-composite state '{state}' must not own regions, found {count}"
  | orthogonalNotComposite state => s!"orthogonal state '{state}' must be composite"
  | orthogonalWithFewRegions state count =>
    s!"orthogonal state '{state}' must own at least two regions, found {count}"
  | submachineNotDeclared state submachine =>
    s!"state '{state}' is not a submachine state but references submachine '{submachine}'"
  | connectionsNotDeclared state =>
    s!"state '{state}' is not a submachine state and cannot have connection point references"
  | submachineMissing state => s!"submachine state '{state}' must reference a submachine"
  | submachineEnclosing state submachine =>
    s!"state '{state}' references its enclosing state machine '{submachine}' as submachine"
  | submachineWithRegions state => s!"submachine state '{state}' must not own regions"
  | submachineComposite state => s!"submachine state '{state}' cannot be composite"
  | pointNotDeclared side _ point submachine =>
    s!"{side.word} point '{point}' is not a connection point of submachine '{submachine}'"
  | severalInitial region indices =>
    s!"region '{region}' has {indices.length} initial pseudostates at indices "
      ++ indexList indices ++ "; at most one is allowed"
  | severalAdvised region kind indices =>
    s!"region '{region}' has {indices.length} {kind.text} pseudostates at indices "
      ++ indexList indices ++ "; at most one is recommended"
  | stateNotListed state region =>
    s!"state '{state}' is not listed in the vertices of region '{region}'"
  | endOutsideRegion side vertex region =>
    s!"{side.word} vertex '{vertex}' is not a member of region '{region}'"
  | finalSource vertex transition =>
    s!"final state '{vertex}' cannot be the source of transition '{transition}'"
  | localFromSimple transition state =>
    s!"local transition '{transition}' requires a composite source state, "
      ++ s!"'{state}' is not composite"
  | initialTarget vertex => s!"initial pseudostate '{vertex}' cannot be the target of a transition"
  | initialSources vertex count =>
    s!"initial pseudostate '{vertex}' has {count} outgoing transitions; at most one is allowed"
  | noRegions => "must have at least one region"
  | methodWithPoints machine count =>
    s!"method state machine '{machine}' must not have connection points, found {count}"
  | notConnectionPoint id found =>
    s!"connection point '{id}' must be an entryPoint or exitPoint, found '{found.text}'"

instance : Cause Breach where
  kind := kind
  field := field
  message := message

end Breach

abbrev Breaches := List (Located Breach)

namespace Context

/-- The breach, located at the element that the context is about, if the condition holds. -/
def breachIf (c : Context) (bad : Prop) [Decidable bad] (type : EntityType) (cause : Breach) :
    Breaches :=
  if bad then [⟨type, c.place, cause⟩] else []

/-- A breach if the text of a field is blank. -/
def require (c : Context) (type : EntityType) (field value : String) : Breaches :=
  c.breachIf (Text.isBlank value) type (.blank field)

end Context

end Statechart
