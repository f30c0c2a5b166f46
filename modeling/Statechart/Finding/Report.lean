import Statechart.Finding.Collection
import Statechart.Json.Printer
import Statechart.Locator

/-! The two written forms of a collection of findings: a report for people, grouped by kind, and
JSON. -/

namespace Statechart

def Finding.reportLine (f : Finding) : String :=
  "\n  - " ++ Locator.label f.path ++ ": " ++ f.type.text ++ "." ++ f.field ++ ": " ++ f.message

def Finding.toJson (f : Finding) : Json :=
  .obj [("kind", .str f.kind.text), ("object_type", .str f.type.text), ("field", .str f.field),
    ("message", .str f.message), ("path", .str f.path)]

namespace Findings

def reportGroup (l : Findings) (kind : FindingKind) : String :=
  match l.ofKind kind with
  | [] => ""
  | group =>
    "\n" ++ kind.text ++ " (" ++ toString group.length ++ "):"
      ++ String.join (group.map (·.reportLine))

def report (l : Findings) : String :=
  if l.isEmpty then "no validation errors"
  else toString l.length ++ " validation error(s)"
    ++ String.join (FindingKind.all.map l.reportGroup)

def toJson (l : Findings) : Json := .arr (l.map (·.toJson))

end Findings

end Statechart
