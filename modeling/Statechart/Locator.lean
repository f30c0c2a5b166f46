/-! Locators: where an element stands, as the fields to follow from the element that an examination
started at. The text form puts a dot between segments and the position in a list between brackets,
as in `Regions[0].States[1].Entry`. -/

namespace Statechart

structure Segment where
  name : String
  /-- The position in the list, where the field holds a list. -/
  index : Option Nat := none
deriving DecidableEq, Repr

abbrev Locator := List Segment

namespace Segment

/-- A field that holds one element. -/
def field (name : String) : Segment := { name }

/-- A place in a field that holds a list. -/
def item (name : String) (index : Nat) : Segment := { name, index := some index }

def text (s : Segment) : String :=
  match s.index with
  | none => s.name
  | some i => s.name ++ "[" ++ toString i ++ "]"

end Segment

namespace Locator

/-- A dot stands before a segment unless nothing was written so far, so leading segments without
a name leave no trace. -/
def text (l : Locator) : String :=
  l.foldl (fun out s => (if out = "" then "" else out ++ ".") ++ s.text) ""

/-- The text form for messages, which need a word for the place where it all started. -/
def label (text : String) : String := if text = "" then "<root>" else text

example : text [.item "Regions" 0, .item "States" 1, .field "Entry"]
    = "Regions[0].States[1].Entry" := by decide

end Locator

end Statechart
