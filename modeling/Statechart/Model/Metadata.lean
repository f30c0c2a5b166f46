import Statechart.Json.Fields

/-! Notes that a machine carries: values under keys, each key once, in ascending order of keys. -/

namespace Statechart

theorem Metadata.ascending_nil : (([] : List (String × Json)).map (·.1)).Pairwise (· < ·) := .nil

structure Metadata where
  entries : List (String × Json) := []
  ascending : (entries.map (·.1)).Pairwise (· < ·) := by exact Metadata.ascending_nil

namespace Metadata

def insert (m : Metadata) (key : String) (value : Json) : Metadata :=
  ⟨Json.putField key value m.entries, Json.pairwise_putField m.ascending⟩

def size (m : Metadata) : Nat := m.entries.length

/-- The fields of an object as notes. -/
def ofFields (fields : List (String × Json)) : Metadata :=
  fields.foldr (fun field m => m.insert field.1 field.2) {}

/-- Passes every value through `f`. -/
def map (f : Json → Json) (m : Metadata) : Metadata :=
  ⟨m.entries.map fun entry => (entry.1, f entry.2), by
    rw [List.map_map]
    exact m.ascending⟩

theorem eq_of_entries {a b : Metadata} (h : a.entries = b.entries) : a = b := by
  cases a; cases b; cases h; rfl

instance : DecidableEq Metadata := fun a b =>
  decidable_of_iff (a.entries = b.entries) ⟨eq_of_entries, fun h => h ▸ rfl⟩

instance : Inhabited Metadata := ⟨{}⟩

end Metadata

end Statechart
