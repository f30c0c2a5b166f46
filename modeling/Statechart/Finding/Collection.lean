import Statechart.Finding.Basic

/-! Collections of findings, in the order in which they were made. Filters keep that order. -/

namespace Statechart

abbrev Findings := List Finding

namespace Findings

def ofKind (l : Findings) (kind : FindingKind) : Findings := l.filter (·.kind = kind)

def onType (l : Findings) (type : EntityType) : Findings := l.filter (·.type = type)

/-- What is left of a path after a path that it lies under, or `none` where it does not lie there.
A path ends between segments only, so `Regions[1]` does not lead to `Regions[10]`. -/
def below? : (path start : List Char) → Option (List Char)
  | rest, [] => if rest = [] ∨ rest.head? = some '.' ∨ rest.head? = some '[' then some rest else none
  | [], _ :: _ => none
  | c :: path, d :: start => if c = d then below? path start else none

/-- Whether a path is `start` or leads on from it. Every path leads on from the empty one. -/
def isUnder (path start : String) : Bool := start = "" || (below? path.toList start.toList).isSome

/-- The findings at a path or below it. -/
def under (l : Findings) (start : String) : Findings := l.filter fun f => isUnder f.path start

def count (l : Findings) (kind : FindingKind) : Nat := (l.ofKind kind).length

/-- How many findings there are of each kind that occurs. -/
def summary (l : Findings) : List (FindingKind × Nat) :=
  FindingKind.all.filterMap fun kind =>
    if l.count kind = 0 then none else some (kind, l.count kind)

example : isUnder "Regions[10]" "Regions[1]" = false := by decide

example : isUnder "Regions[1].States[0]" "Regions[1]" = true := by decide

end Findings

end Statechart
