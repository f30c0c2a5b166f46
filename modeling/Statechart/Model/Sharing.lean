import Statechart.Model.Basic

/-! Shared machines. Several states may stand for one machine, at any depth. A model is written with
placeholders for such machines, `@0`, `@1` and so on, and `link` puts the numbered definitions in
their places. `number` gives a number to each machine that a state of a model stands for, so that a
copy of the model still stands for the same machines. -/

namespace Statechart

mutual

/-- Passes each machine that a state stands for through `f`, innermost first. -/
def StateMachine.mapSubmachinesM {m : Type → Type} [Monad m] (f : StateMachine → m StateMachine)
    (x : StateMachine) : m StateMachine :=
  match x with
  | { regions, .. } => return { x with regions := ← Region.mapSubmachinesListM f regions }

def Region.mapSubmachinesM {m : Type → Type} [Monad m] (f : StateMachine → m StateMachine)
    (r : Region) : m Region :=
  match r with
  | { states, .. } => return { r with states := ← State.mapSubmachinesListM f states }

def State.mapSubmachinesM {m : Type → Type} [Monad m] (f : StateMachine → m StateMachine)
    (s : State) : m State :=
  match s with
  | { regions, submachine, .. } => do
    let regions ← Region.mapSubmachinesListM f regions
    let submachine ← StateMachine.mapSubmachinesSlotM f submachine
    return { s with regions, submachine }

def StateMachine.mapSubmachinesSlotM {m : Type → Type} [Monad m]
    (f : StateMachine → m StateMachine) : Option StateMachine → m (Option StateMachine)
  | none => return none
  | some x => return some (← f (← StateMachine.mapSubmachinesM f x))

def Region.mapSubmachinesListM {m : Type → Type} [Monad m] (f : StateMachine → m StateMachine) :
    List Region → m (List Region)
  | [] => return []
  | r :: rest =>
    return (← Region.mapSubmachinesM f r) :: (← Region.mapSubmachinesListM f rest)

def State.mapSubmachinesListM {m : Type → Type} [Monad m] (f : StateMachine → m StateMachine) :
    List State → m (List State)
  | [] => return []
  | s :: rest => return (← State.mapSubmachinesM f s) :: (← State.mapSubmachinesListM f rest)

end

namespace Sharing

/-- The number in a placeholder: an at sign followed by decimal digits only. -/
def placeholder? (id : String) : Option Nat :=
  match id.toList with
  | '@' :: digit :: digits =>
    if (digit :: digits).all Char.isDigit then
      some ((digit :: digits).foldl (fun n c => 10 * n + (c.toNat - '0'.toNat)) 0)
    else none
  | _ => none

/-- The definition that a placeholder names, and any other machine as it is. -/
def resolve (definitions : List StateMachine) (x : StateMachine) : StateMachine :=
  ((placeholder? x.id).bind (definitions[·]?)).getD x

/-- Puts the definitions in the places of their placeholders. -/
def link (definitions : List StateMachine) (x : StateMachine) : StateMachine :=
  Id.run (x.mapSubmachinesM fun y => pure (resolve definitions y))

/-- Numbers the definitions in order. A definition may use those before it. -/
def define (machines : List StateMachine) : List StateMachine :=
  machines.foldl (fun defined x =>
    defined ++ [{ link defined x with shared := some defined.length }]) []

/-- Gives a machine the next number unless it has one. -/
def number (x : StateMachine) : StateM Nat StateMachine := do
  match x.shared with
  | some _ => return x
  | none => modifyGet fun next => ({ x with shared := some next }, next + 1)

end Sharing

end Statechart
