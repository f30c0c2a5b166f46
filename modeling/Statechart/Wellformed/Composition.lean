import Statechart.Wellformed.Breach

/-! Rules for what a state says it is: simple, composite, orthogonal, or a stand-in for a machine. -/

namespace Statechart

namespace State

def compositionBreaches (c : Context) (s : State) : Breaches :=
  c.breachIf (s.isComposite ∧ s.isSimple) .state (.simpleAndComposite s.id)
    ++ c.breachIf (s.isComposite ∧ s.regions.length = 0) .state (.compositeWithoutRegions s.id)
    ++ c.breachIf (¬ s.isComposite ∧ s.regions.length ≠ 0) .state
      (.regionsWithoutComposite s.id s.regions.length)
    ++ c.breachIf (s.isOrthogonal ∧ ¬ s.isComposite) .state (.orthogonalNotComposite s.id)
    ++ c.breachIf (s.isOrthogonal ∧ s.isComposite ∧ s.regions.length < 2) .state
      (.orthogonalWithFewRegions s.id s.regions.length)

/-- The rules for a state that does not stand for a machine. -/
def plainBreaches (c : Context) (s : State) : Breaches :=
  (match s.submachine with
    | none => []
    | some m => c.breachIf True .state (.submachineNotDeclared s.id m.id))
  ++ c.breachIf (s.connections ≠ []) .state (.connectionsNotDeclared s.id)

/-- The rules for a state that stands for a machine, which is not the one around it. -/
def standInBreaches (c : Context) (s : State) : Breaches :=
  (match s.submachine with
    | none => c.breachIf True .state (.submachineMissing s.id)
    | some m =>
      c.breachIf (¬ Text.isBlank m.id ∧ c.machine.map (·.id) = some m.id) .state
        (.submachineEnclosing s.id m.id))
  ++ c.breachIf (s.regions.length ≠ 0) .state (.submachineWithRegions s.id)
  ++ c.breachIf s.isComposite .state (.submachineComposite s.id)

def submachineBreaches (c : Context) (s : State) : Breaches :=
  if s.isSubmachineState then s.standInBreaches c else s.plainBreaches c

/-- The points that a connection point reference names on a side and the machine does not have. -/
def undeclaredPoints (c : Context) (m : StateMachine) (x : ConnectionPointReference)
    (side : PointSide) : Breaches :=
  (x.points side).zipIdx.flatMap fun p =>
    c.breachIf (¬ Text.isBlank p.1.id ∧ (m.connectionPoint? p.1.id).isNone)
      .connectionPointReference (.pointNotDeclared side p.2 p.1.id m.id)

/-- The connection point references of a submachine state name points of its machine. -/
def connectionBreaches (c : Context) (s : State) : Breaches :=
  match s.isSubmachineState, s.submachine with
  | true, some m =>
    s.connections.zipIdx.flatMap fun x =>
      PointSide.all.flatMap (undeclaredPoints (c.item "Connections" x.2) m x.1)
  | _, _ => []

end State

end Statechart
