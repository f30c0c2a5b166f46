import Statechart.Wellformed.Composition
import Statechart.Wellformed.Edge
import Statechart.Wellformed.Shape

/-! The rules for all that an element owns. A state is examined with its regions and a region with
its states, down to the leaves; a machine that a state stands for is not entered. -/

namespace Statechart

namespace Region

/-- At most one initial pseudostate, and on demand at most one of each kind that is seldom wanted
twice. -/
def multiplicityBreaches (c : Context) (r : Region) : Breaches :=
  let initial := r.pseudostateIndices .initial
  c.breachIf (1 < initial.length) .region (.severalInitial r.id initial)
    ++ if c.options.bestPractices then
      [PseudostateKind.deepHistory, .terminate].flatMap fun kind =>
        let found := r.pseudostateIndices kind
        c.breachIf (1 < found.length) .region (.severalAdvised r.id kind found)
    else []

/-- Nothing leads to an initial pseudostate, and at most one transition leads from it. -/
def initialBreaches (c : Context) (r : Region) : Breaches :=
  r.initialIds.flatMap fun id =>
    let incoming := (r.transitions.filter (·.targetId? = some id)).length
    let outgoing := (r.transitions.filter (·.sourceId? = some id)).length
    if Text.isBlank id then []
    else c.breachIf (0 < incoming) .region (.initialTarget id)
      ++ c.breachIf (1 < outgoing) .region (.initialSources id outgoing)

def vertexBreaches (c : Context) (r : Region) : Breaches :=
  r.vertices.zipIdx.flatMap fun v => v.1.breaches (c.item "Vertices" v.2)

def transitionBreaches (c : Context) (r : Region) : Breaches :=
  r.transitions.zipIdx.flatMap fun t =>
    let c := c.item "Transitions" t.2
    t.1.breaches c ++ t.1.scopeBreaches c r

/-- A state stands among the vertices of its region as well. -/
def listingBreaches (c : Context) (r : Region) (s : State) : Breaches :=
  c.breachIf (¬ Text.isBlank s.id ∧ (r.vertex? s.id).isNone) .region (.stateNotListed s.id r.id)

end Region

def State.actionBreaches (c : Context) (s : State) : Breaches :=
  (s.entry.toList.flatMap (·.breaches (c.field "Entry")))
    ++ (s.exit.toList.flatMap (·.breaches (c.field "Exit")))
    ++ s.doActivity.toList.flatMap (·.breaches (c.field "DoActivity"))

mutual

def Region.breaches (c : Context) (r : Region) : Breaches :=
  match r with
  | { states, .. } =>
    let c := c.enterRegion r
    c.require .region "ID" r.id ++ r.vertexBreaches c ++ r.multiplicityBreaches c
      ++ Region.stateBreaches c r states 0 ++ r.transitionBreaches c ++ r.initialBreaches c

/-- The states of a region, the first of them at the position given. -/
def Region.stateBreaches (c : Context) (r : Region) : List State → Nat → Breaches
  | [], _ => []
  | s :: rest, i =>
    r.listingBreaches c s ++ s.breaches (c.item "States" i) ++ Region.stateBreaches c r rest (i + 1)

def State.breaches (c : Context) (s : State) : Breaches :=
  match s with
  | { regions, .. } =>
    s.shapeBreaches c .state ++ s.tagBreaches c .state .state ++ s.compositionBreaches c
      ++ s.submachineBreaches c ++ s.actionBreaches c ++ Region.listBreaches c regions 0
      ++ (s.connections.zipIdx.flatMap fun x => x.1.breaches (c.item "Connections" x.2))
      ++ s.connectionBreaches c

/-- The regions of a state or a machine, the first of them at the position given. -/
def Region.listBreaches (c : Context) : List Region → Nat → Breaches
  | [], _ => []
  | r :: rest, i => r.breaches (c.item "Regions" i) ++ Region.listBreaches c rest (i + 1)

end

namespace Region

theorem stateBreaches_eq_flatMap (c : Context) (r : Region) (states : List State) (i : Nat) :
    r.stateBreaches c states i =
      (states.zipIdx i).flatMap fun s =>
        r.listingBreaches c s.1 ++ s.1.breaches (c.item "States" s.2) := by
  induction states generalizing i with
  | nil => simp [stateBreaches]
  | cons s rest ih => simp [stateBreaches, ih]

theorem listBreaches_eq_flatMap (c : Context) (regions : List Region) (i : Nat) :
    listBreaches c regions i =
      (regions.zipIdx i).flatMap fun r => r.1.breaches (c.item "Regions" r.2) := by
  induction regions generalizing i with
  | nil => simp [listBreaches]
  | cons r rest ih => simp [listBreaches, ih]

end Region

namespace StateMachine

/-- A pseudostate among the connection points is an entry or exit point. -/
def pointBreaches (c : Context) (m : StateMachine) : Breaches :=
  m.connectionPoints.zipIdx.flatMap fun p =>
    let c := c.item "ConnectionPoints" p.2
    c.breachIf (p.1.kind.isKnown ∧ ¬ p.1.kind.isConnectionPoint) .pseudostate
        (.notConnectionPoint p.1.id p.1.kind)
      ++ p.1.breaches c

def breaches (c : Context) (m : StateMachine) : Breaches :=
  let c := c.enterMachine m
  c.require .stateMachine "ID" m.id
    ++ c.breachIf (m.regions.length = 0) .stateMachine .noRegions
    ++ c.breachIf (m.isMethod ∧ m.connectionPoints ≠ []) .stateMachine
      (.methodWithPoints m.id m.connectionPoints.length)
    ++ m.pointBreaches c ++ Region.listBreaches c m.regions 0

end StateMachine

end Statechart
