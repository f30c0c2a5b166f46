import Statechart.Wellformed.Breach

/-! Rules for conditions, actions and triggers, whose fields that say what they are must be set, and
for vertices: the shape that all of them share, and the kinds of pseudostate with the places where
each may stand. -/

namespace Statechart

def Constraint.breaches (c : Context) (x : Constraint) : Breaches :=
  c.require .constraint "ID" x.id ++ c.require .constraint "Specification" x.specification

def Behavior.breaches (c : Context) (x : Behavior) : Breaches :=
  c.require .behavior "ID" x.id ++ c.require .behavior "Specification" x.specification

def Trigger.breaches (c : Context) (x : Trigger) : Breaches :=
  c.require .trigger "ID" x.id ++ c.require .trigger "Event" x.event

namespace Vertex

/-- The rules for the shape of an element of any vertex type. -/
def shapeBreaches (c : Context) (type : EntityType) (v : Vertex) : Breaches :=
  c.require type "ID" v.id
    ++ c.breachIf (v.type.isKnown = false) type (.unknownVertexType v.type.text)

/-- An element with a type of its own carries the tag of that type. An unknown tag has been reported
as such. -/
def tagBreaches (c : Context) (type : EntityType) (expected : VertexType) (v : Vertex) :
    Breaches :=
  c.breachIf (v.type.isKnown ∧ v.type ≠ expected) type (.wrongVertexType v.id expected v.type)

def breaches (c : Context) (v : Vertex) : Breaches := v.shapeBreaches c .vertex

end Vertex

/-- An unknown kind belongs nowhere in particular, so it is reported and nothing more. -/
def Pseudostate.kindBreaches (c : Context) (p : Pseudostate) : Breaches :=
  if p.kind.isKnown then
    c.breachIf (p.kind.isHistory ∧ c.region.isNone) .pseudostate
        (.historyOutsideRegion p.kind p.id)
      ++ match c.region with
        | none => []
        | some r =>
          c.breachIf p.kind.isConnectionPoint .pseudostate
            (.connectionPointInRegion p.kind p.id r.id)
  else c.breachIf True .pseudostate (.unknownPseudostateKind p.kind.text)

def Pseudostate.breaches (c : Context) (p : Pseudostate) : Breaches :=
  p.shapeBreaches c .pseudostate ++ p.tagBreaches c .pseudostate .pseudostate ++ p.kindBreaches c

def FinalState.breaches (c : Context) (f : FinalState) : Breaches :=
  f.shapeBreaches c .finalState ++ f.tagBreaches c .finalState .finalState

def RegionVertex.breaches (c : Context) : RegionVertex → Breaches
  | vertex v => v.breaches c
  | pseudostate p => p.breaches c
  | finalState f => f.breaches c

/-- The rules for a point that a connection point reference names on a side. The point belongs to
another machine, so only what the reference itself says of it is looked at. -/
def Pseudostate.pointBreaches (c : Context) (side : PointSide) (p : Pseudostate) : Breaches :=
  c.require .pseudostate "ID" p.id
    ++ if p.kind.isKnown then
      c.breachIf (p.kind ≠ side.kind) .pseudostate (.wrongPointKind side p.kind)
    else c.breachIf True .pseudostate (.unknownPseudostateKind p.kind.text)

def ConnectionPointReference.breaches (c : Context) (x : ConnectionPointReference) : Breaches :=
  x.shapeBreaches c .connectionPointReference
    ++ c.breachIf (x.entry = [] ∧ x.exit = []) .connectionPointReference (.noPoints x.id)
    ++ PointSide.all.flatMap fun side =>
      (x.points side).zipIdx.flatMap fun p => p.1.pointBreaches (c.item side.field p.2) side

end Statechart
