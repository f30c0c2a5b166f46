import Statechart.Graph.Search
import Statechart.Integrity.Survey
import Statechart.Options

/-! The checks on a finished survey: every reference leads to a recorded element, every edge joins
types that may be joined, and neither owning nor standing for a machine runs in a circle. A cycle is
reported once, on the first of its edges, whichever of its edges lead into it. -/

namespace Statechart

namespace EntityType

def canContain : EntityType → EntityType → Bool
  | stateMachine, region | stateMachine, pseudostate => true
  | region, state | region, vertex | region, pseudostate | region, finalState
  | region, transition => true
  | state, region | state, connectionPointReference => true
  | connectionPointReference, pseudostate => true
  | _, _ => false

def isVertex : EntityType → Bool
  | vertex | state | pseudostate | finalState | connectionPointReference => true
  | _ => false

/-- A vertex is tied to vertices only, not to what contains or connects them. -/
def mayReference (a b : EntityType) : Bool :=
  !(a.isVertex && (b = stateMachine || b = region || b = transition))

/-- Whether an element of the first type may stand for one of the second. -/
def mayStandFor (a b : EntityType) : Bool := a = state && b = stateMachine

end EntityType

namespace Relation

def allows : Relation → EntityType → EntityType → Bool
  | containment => EntityType.canContain
  | submachine => EntityType.mayStandFor

def clash (a b : String) (type : EntityType) : Relation → Defect
  | containment => .cannotContain a type b
  | submachine => .cannotStandFor a type b

end Relation

namespace Survey

/-- A defect of the element recorded for an ID. -/
def defectAt (s : Survey) (id : String) (cause : Defect) : Located Defect :=
  match s.entry? id with
  | some x => ⟨x.type, x.place, cause⟩
  | none => ⟨.vertex, [], cause⟩

def referenceDefects (s : Survey) : Defects :=
  s.references.filterMap fun r =>
    match r.target with
    | none => some ⟨r.type, r.place, .unset r.field⟩
    | some id =>
      if (s.entry? id).isSome then none else some ⟨r.type, r.place, .unknownTarget r.field id⟩

def associationDefects (s : Survey) : Defects :=
  s.association.edges.flatMap fun (a, b) =>
    (if s.association.contains b a then [] else [s.defectAt a (.noBackReference a b)])
      ++ match s.entry? a, s.entry? b with
        | some x, some y =>
          if x.type.mayReference y.type then [] else [s.defectAt a (.cannotReference a y.type b)]
        | _, _ => []

/-- The edges whose circles a relation is checked for. -/
def edges (s : Survey) : Relation → List (String × String)
  | .containment => s.containment.edges
  | .submachine => s.standIn.edges

/-- The graph in which an edge of the relation can close a circle. -/
def graph (s : Survey) : Relation → Digraph
  | .containment => s.containment
  | .submachine => s.containment ++ s.standIn

def clashDefects (s : Survey) (relation : Relation) (a b : String) : Defects :=
  match s.entry? a, s.entry? b with
  | some x, some y =>
    if relation.allows x.type y.type then [] else [s.defectAt a (relation.clash a b y.type)]
  | _, _ => []

/-- Checks each edge by a search for a way back from its end. Cycles with a key in `seen` have been
reported. -/
def edgeDefects (s : Survey) (limit : Nat) (relation : Relation) :
    List (String × String) → (seen : List (List String)) → Defects
  | [], _ => []
  | (a, b) :: rest, seen =>
    s.clashDefects relation a b
      ++ match (s.graph relation).findPath b a limit with
        | .clear => s.edgeDefects limit relation rest seen
        | .tooDeep path =>
          s.defectAt a (.tooDeep relation a limit path) :: s.edgeDefects limit relation rest seen
        | .found path =>
          let key := cycleKey (a :: path)
          if key ∈ seen then s.edgeDefects limit relation rest seen
          else
            s.defectAt a (.cycle relation (a :: path))
              :: s.edgeDefects limit relation rest (key :: seen)

def relationDefects (s : Survey) (limit : Nat) (relation : Relation) : Defects :=
  s.edgeDefects limit relation (s.edges relation) []

def allDefects (s : Survey) (limit : Nat) : Defects :=
  s.defects ++ s.referenceDefects ++ s.associationDefects ++ s.relationDefects limit .containment
    ++ s.relationDefects limit .submachine

end Survey

/-- The integrity defects of all that can be reached from an element, located below `place`. -/
def Element.integrityDefects (e : Element) (options : Options) (place : Locator) : Defects :=
  (e.survey place).allDefects options.maxCycleDepth

end Statechart
