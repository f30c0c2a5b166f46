import Statechart.Json.Basic

/-! Reading records. A record is written as an object, or as an array of its field values in a fixed
order whose tail may be left out; both are looked at as a list of named values. Each value comes
with the proof that it is smaller than the record, so a reader that calls itself on the values of
its fields ends. -/

namespace Statechart.Json

/-- A value inside `j`. -/
abbrev Below (j : Json) := { x : Json // sizeOf x < sizeOf j }

abbrev Record (j : Json) := List (String × j.Below)

theorem sizeOf_lt_arr {x : Json} {items : List Json} (h : x ∈ items) :
    sizeOf x < sizeOf (arr items) := by
  have := List.sizeOf_lt_of_mem h
  simp only [arr.sizeOf_spec]
  omega

theorem sizeOf_lt_obj {field : String × Json} {fields : List (String × Json)}
    (h : field ∈ fields) : sizeOf field.2 < sizeOf (obj fields) := by
  have := List.sizeOf_lt_of_mem h
  obtain ⟨key, value⟩ := field
  simp only [obj.sizeOf_spec, Prod.mk.sizeOf_spec] at this ⊢
  omega

/-- The items of an array. -/
def items? : (j : Json) → Option (List j.Below)
  | arr items => some (items.attach.map fun x => ⟨x.1, sizeOf_lt_arr x.2⟩)
  | _ => none

/-- The fields of an object, or of an array of at most as many values as there are names. -/
def record? (names : List String) : (j : Json) → Option j.Record
  | obj fields => some (fields.attach.map fun x => (x.1.1, ⟨x.1.2, sizeOf_lt_obj x.2⟩))
  | arr items =>
    if items.length ≤ names.length then
      some (names.zip (items.attach.map fun x => ⟨x.1, sizeOf_lt_arr x.2⟩))
    else none
  | _ => none

def bool? : Json → Option Bool
  | bool b => some b
  | _ => none

def str? : Json → Option String
  | str s => some s
  | _ => none

/-- A whole number from zero on. -/
def nat? : Json → Option Nat
  | int (.ofNat n) => some n
  | _ => none

namespace Record

variable {j : Json} {α : Type}

/-- The value of a field that must be there. -/
def required (fields : j.Record) (key : String) (read : j.Below → Option α) : Option α :=
  (fields.lookup key).bind read

/-- The value of a field, or `default` where the field is left out. -/
def optional (fields : j.Record) (key : String) (default : α) (read : j.Below → Option α) :
    Option α :=
  match fields.lookup key with
  | none => some default
  | some x => read x

/-- A field that may be left out or hold `null`. -/
def slot (fields : j.Record) (key : String) (read : j.Below → Option α) : Option (Option α) :=
  fields.optional key none fun x =>
    match x.1 with
    | null => some none
    | _ => (read x).map some

/-- A list field, empty where it is left out. -/
def list (fields : j.Record) (key : String) (read : j.Below → Option α) : Option (List α) :=
  fields.optional key [] fun x => do
    (← x.1.items?).mapM fun item => read ⟨item.1, Nat.lt_trans item.2 x.2⟩

end Record

end Statechart.Json
