import Statechart.Wellformed.Shape

/-! Rules for transitions: by themselves, and within the region that owns them. -/

namespace Statechart

namespace Transition

/-- An internal transition does not leave its state. -/
def internalBreaches (c : Context) (t : Transition) : Breaches :=
  match t.sourceId?, t.targetId? with
  | some source, some target =>
    c.breachIf (t.kind = .internal ∧ source ≠ target) .transition
      (.internalBetween t.id source target)
  | _, _ => []

def breaches (c : Context) (t : Transition) : Breaches :=
  c.require .transition "ID" t.id
    ++ (TransitionEnd.all.flatMap fun side =>
      c.breachIf ((t.atEnd side).isNone) .transition (.noEnd side t.id))
    ++ c.breachIf (t.kind.isKnown = false) .transition (.unknownTransitionKind t.kind.text)
    ++ t.internalBreaches c
    ++ (t.guard.toList.flatMap (·.breaches (c.field "Guard")))
    ++ (t.effect.toList.flatMap (·.breaches (c.field "Effect")))
    ++ t.triggers.zipIdx.flatMap fun x => x.1.breaches (c.item "Triggers" x.2)

/-- The end of a transition belongs to the region that owns the transition. -/
def endBreaches (c : Context) (r : Region) (t : Transition) (side : TransitionEnd) : Breaches :=
  match t.atEnd side with
  | none => []
  | some v =>
    c.breachIf (¬ Text.isBlank v.id ∧ ¬ r.hasMember v.id) .transition
      (.endOutsideRegion side v.id r.id)

/-- Whether the region or the tag of the vertex says that it is a final state. -/
def isFinal (r : Region) (v : Vertex) : Bool :=
  v.type = .finalState || (r.vertex? v.id).any (·.isFinalState)

/-- No transition leaves a final state, and a local one leaves a composite state. -/
def sourceBreaches (c : Context) (r : Region) (t : Transition) : Breaches :=
  match t.source with
  | none => []
  | some v =>
    c.breachIf (isFinal r v) .transition (.finalSource v.id t.id)
      ++ c.breachIf (t.kind = .local ∧ (r.state? v.id).any (!·.isComposite)) .transition
        (.localFromSimple t.id v.id)

/-- The rules for a transition among the elements of its region. -/
def scopeBreaches (c : Context) (r : Region) (t : Transition) : Breaches :=
  (TransitionEnd.all.flatMap (t.endBreaches c r)) ++ t.sourceBreaches c r

end Transition

end Statechart
