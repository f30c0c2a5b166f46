/-! JSON values. An object keeps its fields in the order given; where a key repeats the first one
counts. The two zeros among the doubles are one number with two written forms, so they have to be
made one before values are compared as numbers. -/

namespace Statechart

inductive Json where
  | null
  | bool (value : Bool)
  /-- A whole number that fits 64 bits, with or without a sign. -/
  | int (value : Int)
  /-- Any other number, as the bits of a finite double. -/
  | float (bits : UInt64)
  | str (text : String)
  | arr (items : List Json)
  | obj (fields : List (String × Json))

namespace Json

instance : Inhabited Json := ⟨null⟩

def nat (n : Nat) : Json := int n

/-- An optional value, with `null` for none. -/
def ofOption {α : Type} (write : α → Json) : Option α → Json
  | none => null
  | some a => write a

mutual

def decEq (a b : Json) : Decidable (a = b) :=
  match a, b with
  | null, null => isTrue rfl
  | bool x, bool y => decidable_of_iff (x = y) (by simp)
  | int m, int n => decidable_of_iff (m = n) (by simp)
  | float x, float y => decidable_of_iff (x = y) (by simp)
  | str x, str y => decidable_of_iff (x = y) (by simp)
  | arr x, arr y =>
    haveI := decEqItems x y
    decidable_of_iff (x = y) (by simp)
  | obj x, obj y =>
    haveI := decEqFields x y
    decidable_of_iff (x = y) (by simp)
  | null, bool _ | null, int _ | null, float _ | null, str _ | null, arr _ | null, obj _
  | bool _, null | bool _, int _ | bool _, float _ | bool _, str _ | bool _, arr _
  | bool _, obj _
  | int _, null | int _, bool _ | int _, float _ | int _, str _ | int _, arr _ | int _, obj _
  | float _, null | float _, bool _ | float _, int _ | float _, str _ | float _, arr _
  | float _, obj _
  | str _, null | str _, bool _ | str _, int _ | str _, float _ | str _, arr _ | str _, obj _
  | arr _, null | arr _, bool _ | arr _, int _ | arr _, float _ | arr _, str _ | arr _, obj _
  | obj _, null | obj _, bool _ | obj _, int _ | obj _, float _ | obj _, str _ | obj _, arr _ =>
    isFalse (by intro h; cases h)

def decEqItems (a b : List Json) : Decidable (a = b) :=
  match a, b with
  | [], [] => isTrue rfl
  | x :: xs, y :: ys =>
    haveI := decEq x y
    haveI := decEqItems xs ys
    decidable_of_iff (x = y ∧ xs = ys) (by simp)
  | [], _ :: _ | _ :: _, [] => isFalse (by intro h; cases h)

def decEqFields (a b : List (String × Json)) : Decidable (a = b) :=
  match a, b with
  | [], [] => isTrue rfl
  | (k, x) :: xs, (l, y) :: ys =>
    haveI := decEq x y
    haveI := decEqFields xs ys
    decidable_of_iff ((k = l ∧ x = y) ∧ xs = ys) (by simp)
  | [], _ :: _ | _ :: _, [] => isFalse (by intro h; cases h)

end

instance : DecidableEq Json := decEq

mutual

/-- The value with plain zeros in the places of negative ones. -/
def plainZeros : Json → Json
  | float bits => float (if bits = 0x8000000000000000 then 0 else bits)
  | arr items => arr (plainZerosItems items)
  | obj fields => obj (plainZerosFields fields)
  | x => x

def plainZerosItems : List Json → List Json
  | [] => []
  | x :: rest => plainZeros x :: plainZerosItems rest

def plainZerosFields : List (String × Json) → List (String × Json)
  | [] => []
  | (key, x) :: rest => (key, plainZeros x) :: plainZerosFields rest

end

end Json

end Statechart
