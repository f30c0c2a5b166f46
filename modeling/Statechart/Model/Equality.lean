import Statechart.Model.Basic

/-! Equality of models is decidable. -/

namespace Statechart

mutual

def StateMachine.decEq (a b : StateMachine) : Decidable (a = b) :=
  match a, b with
  | ⟨id, name, regions, points, isMethod, metadata, shared⟩,
    ⟨id', name', regions', points', isMethod', metadata', shared'⟩ =>
    haveI := Region.decEqList regions regions'
    decidable_of_iff (id = id' ∧ name = name' ∧ regions = regions' ∧ points = points' ∧
      isMethod = isMethod' ∧ metadata = metadata' ∧ shared = shared') (by simp)

def Region.decEq (a b : Region) : Decidable (a = b) :=
  match a, b with
  | ⟨id, name, states, vertices, transitions⟩, ⟨id', name', states', vertices', transitions'⟩ =>
    haveI := State.decEqList states states'
    decidable_of_iff (id = id' ∧ name = name' ∧ states = states' ∧ vertices = vertices' ∧
      transitions = transitions') (by simp)

def State.decEq (a b : State) : Decidable (a = b) :=
  match a, b with
  | ⟨shape, simple, composite, orthogonal, stands, regions, sub, connections, entry, exit, act⟩,
    ⟨shape', simple', composite', orthogonal', stands', regions', sub', connections', entry', exit',
      act'⟩ =>
    haveI := Region.decEqList regions regions'
    haveI := StateMachine.decEqSlot sub sub'
    decidable_of_iff (shape = shape' ∧ simple = simple' ∧ composite = composite' ∧
      orthogonal = orthogonal' ∧ stands = stands' ∧ regions = regions' ∧ sub = sub' ∧
      connections = connections' ∧ entry = entry' ∧ exit = exit' ∧ act = act') (by simp)

def StateMachine.decEqSlot (a b : Option StateMachine) : Decidable (a = b) :=
  match a, b with
  | none, none => isTrue rfl
  | some m, some n =>
    haveI := StateMachine.decEq m n
    decidable_of_iff (m = n) (by simp)
  | none, some _ | some _, none => isFalse (by intro h; cases h)

def Region.decEqList (a b : List Region) : Decidable (a = b) :=
  match a, b with
  | [], [] => isTrue rfl
  | r :: rs, q :: qs =>
    haveI := Region.decEq r q
    haveI := Region.decEqList rs qs
    decidable_of_iff (r = q ∧ rs = qs) (by simp)
  | [], _ :: _ | _ :: _, [] => isFalse (by intro h; cases h)

def State.decEqList (a b : List State) : Decidable (a = b) :=
  match a, b with
  | [], [] => isTrue rfl
  | s :: ss, t :: ts =>
    haveI := State.decEq s t
    haveI := State.decEqList ss ts
    decidable_of_iff (s = t ∧ ss = ts) (by simp)
  | [], _ :: _ | _ :: _, [] => isFalse (by intro h; cases h)

end

instance : DecidableEq StateMachine := StateMachine.decEq

instance : DecidableEq Region := Region.decEq

instance : DecidableEq State := State.decEq

end Statechart
