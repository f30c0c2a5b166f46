/-! The tags that vertices and transitions carry. A tag outside its domain is kept as it was read,
so that a model with such a tag can still be held, examined and written back. -/

namespace Statechart

inductive VertexType where
  | state
  | pseudostate
  | finalState
  | unknown (raw : String)
deriving DecidableEq, Repr

namespace VertexType

def text : VertexType → String
  | state => "state"
  | pseudostate => "pseudostate"
  | finalState => "finalstate"
  | unknown raw => raw

def ofText : String → VertexType
  | "state" => state
  | "pseudostate" => pseudostate
  | "finalstate" => finalState
  | raw => unknown raw

def isKnown : VertexType → Bool
  | unknown _ => false
  | _ => true

end VertexType

inductive PseudostateKind where
  | initial
  | deepHistory
  | shallowHistory
  | fork
  | join
  | junction
  | choice
  | entryPoint
  | exitPoint
  | terminate
  | unknown (raw : String)
deriving DecidableEq, Repr

namespace PseudostateKind

def text : PseudostateKind → String
  | initial => "initial"
  | deepHistory => "deepHistory"
  | shallowHistory => "shallowHistory"
  | fork => "fork"
  | join => "join"
  | junction => "junction"
  | choice => "choice"
  | entryPoint => "entryPoint"
  | exitPoint => "exitPoint"
  | terminate => "terminate"
  | unknown raw => raw

def ofText : String → PseudostateKind
  | "initial" => initial
  | "deepHistory" => deepHistory
  | "shallowHistory" => shallowHistory
  | "fork" => fork
  | "join" => join
  | "junction" => junction
  | "choice" => choice
  | "entryPoint" => entryPoint
  | "exitPoint" => exitPoint
  | "terminate" => terminate
  | raw => unknown raw

def isKnown : PseudostateKind → Bool
  | unknown _ => false
  | _ => true

/-- The kinds that remember where a region was left, and so need a region around them. -/
def isHistory : PseudostateKind → Bool
  | deepHistory | shallowHistory => true
  | _ => false

/-- The kinds that stand on the boundary of a state machine. -/
def isConnectionPoint : PseudostateKind → Bool
  | entryPoint | exitPoint => true
  | _ => false

end PseudostateKind

inductive TransitionKind where
  | external
  | internal
  | «local»
  | unknown (raw : String)
deriving DecidableEq, Repr

namespace TransitionKind

def text : TransitionKind → String
  | external => "external"
  | internal => "internal"
  | «local» => "local"
  | unknown raw => raw

def ofText : String → TransitionKind
  | "external" => external
  | "internal" => internal
  | "local" => «local»
  | raw => unknown raw

def isKnown : TransitionKind → Bool
  | unknown _ => false
  | _ => true

end TransitionKind

theorem VertexType.text_ofText (raw : String) : (ofText raw).text = raw := by
  unfold ofText; split <;> rfl

theorem PseudostateKind.text_ofText (raw : String) : (ofText raw).text = raw := by
  unfold ofText; split <;> rfl

theorem TransitionKind.text_ofText (raw : String) : (ofText raw).text = raw := by
  unfold ofText; split <;> rfl

end Statechart
