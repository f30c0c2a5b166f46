import Statechart.Finding.Basic
import Statechart.Locator
import Statechart.Model.Basic
import Statechart.Options
import Statechart.Text

/-! The surroundings of an element under examination: the machine and the region around it, the
locator of the element, notes by key, and the options. -/

namespace Statechart

structure Context where
  machine : Option StateMachine := none
  region : Option Region := none
  place : Locator := []
  /-- The notes, the latest first. -/
  notes : List (String × String) := []
  options : Options := {}

namespace Context

/-- Inside a machine no region of an outer machine is around an element. -/
def enterMachine (c : Context) (m : StateMachine) : Context :=
  { c with machine := some m, region := none }

def enterRegion (c : Context) (r : Region) : Context := { c with region := some r }

def field (c : Context) (name : String) : Context := { c with place := c.place ++ [.field name] }

def item (c : Context) (name : String) (index : Nat) : Context :=
  { c with place := c.place ++ [.item name index] }

def note (c : Context) (key value : String) : Context :=
  { c with notes := (key, value) :: c.notes }

/-- The latest note under a key. -/
def note? (c : Context) (key : String) : Option String := c.notes.lookup key

def path (c : Context) : String := c.place.text

/-- A finding on the element that the context is about. -/
def finding (c : Context) (kind : FindingKind) (type : EntityType) (field message : String) :
    Finding :=
  { kind, type, field, message, path := c.path }

/-- An optional ID as it stands in the description of a context. -/
def optionText : Option String → String
  | none => "None"
  | some s => "Some(" ++ Text.quoted s ++ ")"

/-- A description of the context for people who look for a mistake. -/
def description (c : Context) : String :=
  "ValidationContext \x7b state_machine: " ++ optionText (c.machine.map (·.id))
    ++ ", region: " ++ optionText (c.region.map (·.id))
    ++ ", path: " ++ Text.quoted c.path
    ++ ", options: ValidationOptions \x7b max_cycle_depth: " ++ toString c.options.maxCycleDepth
    ++ ", best_practices: " ++ (if c.options.bestPractices then "true" else "false")
    ++ " \x7d \x7d"

end Context

end Statechart
