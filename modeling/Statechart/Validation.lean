import Statechart.Finding.Collection
import Statechart.Integrity.Check
import Statechart.Wellformed.Tree

/-! The examination of a whole model: the rules for each element first, in the order of the tree,
then the integrity of the whole. -/

namespace Statechart

def Breaches.findings (l : Breaches) : Findings := l.map (·.finding)

def Defects.findings (l : Defects) : Findings := l.map (·.finding)

namespace StateMachine

def ruleFindings (m : StateMachine) (c : Context) : Findings := (m.breaches c).findings

def validate (m : StateMachine) (options : Options) : Findings :=
  m.ruleFindings { options } ++ ((Element.stateMachine m).integrityDefects options []).findings

end StateMachine

end Statechart
