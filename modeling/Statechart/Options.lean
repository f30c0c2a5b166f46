import Statechart.Json.Record

/-! Settings shared by the rules and the integrity check. -/

namespace Statechart

structure Options where
  /-- The number of nodes a path may have in a search for cycles. -/
  maxCycleDepth : Nat := 100
  /-- Whether advice is reported as well: at most one deep history and one terminate pseudostate in
  a region. -/
  bestPractices : Bool := false
deriving DecidableEq, Repr

namespace Options

/-- A depth is a 64-bit word. -/
def depth? (j : Json) : Option Nat := j.nat?.filter (· < UInt64.size)

def ofJson? (j : Json) : Option Options := do
  let fields ← j.record? ["maxCycleDepth", "bestPractices"]
  let maxCycleDepth ← fields.optional "maxCycleDepth" 100 fun x => depth? x.1
  let bestPractices ← fields.optional "bestPractices" false fun x => x.1.bool?
  return { maxCycleDepth, bestPractices }

def toJson (o : Options) : Json :=
  .obj [("maxCycleDepth", .nat o.maxCycleDepth), ("bestPractices", .bool o.bestPractices)]

end Options

end Statechart
