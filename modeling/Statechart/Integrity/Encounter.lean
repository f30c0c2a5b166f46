import Statechart.Element
import Statechart.Text

/-! Encounters: what is known of an element at the moment a walk comes to it. An element can be met
more than once, because several states may stand for one machine. Two encounters are of one and the
same element when they have one origin: the same steps inside the same shared definition, or inside
the element that the walk started at. -/

namespace Statechart

structure Origin where
  /-- The nearest shared definition on the way to the element. -/
  definition : Option Nat := none
  /-- The way to the element from there. -/
  steps : Locator := []
deriving DecidableEq, Repr

/-- The number of the definition that the element itself is. -/
def Element.definition? : Element → Option Nat
  | stateMachine m => m.shared
  | _ => none

namespace Origin

/-- The origin of the element that a walk starts at. -/
def ofRoot (e : Element) : Origin := { definition := e.definition? }

/-- The origin of a part. A shared definition is the same wherever it is held. -/
def ofPart (owner : Origin) (p : Part) : Origin :=
  match p.element.definition? with
  | some n => { definition := some n }
  | none => { owner with steps := owner.steps ++ [p.step] }

end Origin

structure Encounter where
  element : Element
  origin : Origin
  place : Locator
  /-- The ID of the owner, where there is an owner with an ID. -/
  owner : Option String
  role : Role

namespace Encounter

def id (x : Encounter) : String := x.element.id

def type (x : Encounter) : EntityType := x.element.type

/-- The start of a walk, at a place of the caller's choice. -/
def ofRoot (e : Element) (place : Locator) : Encounter :=
  { element := e, origin := .ofRoot e, place, owner := none, role := .member }

/-- The ID under which other elements can know the element. -/
def knownId? (x : Encounter) : Option String := if Text.isBlank x.id then none else some x.id

def part (x : Encounter) (p : Part) : Encounter :=
  { element := p.element, origin := x.origin.ofPart p, place := x.place ++ [p.step],
    owner := x.knownId?, role := p.role }

/-- Whether two equal connection points are one point: named by a connection point reference, and
listed by a machine or named again. Two points that machines list are different ones. -/
def isSamePoint (a b : Encounter) : Bool :=
  match a.element, b.element with
  | .pseudostate p, .pseudostate q =>
    p = q && a.role.isPoint && b.role.isPoint
      && (a.role = .referencePoint || b.role = .referencePoint)
  | _, _ => false

/-- Whether a state and a vertex are the state and its entry among the vertices of its region. -/
def isListing (a b : Encounter) : Bool :=
  a.element.isListingPair b.element && a.owner = b.owner

end Encounter

end Statechart
