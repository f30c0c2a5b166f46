import Statechart.Json.Basic

/-! JSON numbers as text. A whole number that fits 64 bits, with or without a sign, is kept as it is.
Every other number becomes a double, and so does negative zero, which no whole number can be. A
double is written in full and with a point, so that it is not taken for a whole number again. -/

namespace Statechart.Json

/-- A number as it is written. -/
structure Numeral where
  negative : Bool
  /-- The digits before the point. -/
  whole : List Nat
  /-- The digits after the point. -/
  fraction : List Nat
  exponent : Option Int
deriving DecidableEq, Repr

namespace Numeral

def value (digits : List Nat) : Nat := digits.foldl (fun n d => 10 * n + d) 0

/-- The whole number that is meant, if it is written as one and fits 64 bits. -/
def int? (x : Numeral) : Option Int :=
  let n := value x.whole
  if x.fraction ≠ [] ∨ x.exponent.isSome then none
  else if x.negative then if 0 < n ∧ n ≤ Nat.pow 2 63 then some (-n) else none
  else if n < UInt64.size then some n else none

/-- The number that the first digits make after `n`, as many of them as fit a 64-bit word, and how
many digits are left over. -/
def leading : List Nat → (n : Nat) → Nat × Nat
  | [], n => (n, 0)
  | d :: rest, n =>
    if 10 * n + d < UInt64.size then leading rest (10 * n + d) else (n, rest.length + 1)

def power (n : Nat) : Float := Float.ofScientific 1 false n

/-- The double times a power of ten, or `none` where that is too large for a double. Each operation
rounds. A quotient by more than the greatest power takes two. -/
def scale (x : Float) : (exponent : Int) → Option Float
  | .ofNat n =>
    let y := x * power (min n 309)
    if x == 0 then some x else if y.isFinite then some y else none
  | .negSucc n =>
    some (if n < 308 then x / power (n + 1) else x / power 308 / power (min (n - 307) 308))

/-- The double next to the number, up to the rounding of a word and of its scale. Digits that do not
fit the word count as zeros. -/
def double? (x : Numeral) : Option Float := do
  let (word, left) := leading (x.whole ++ x.fraction) 0
  let size ← scale (UInt64.ofNat word).toFloat
    ((left : Int) - (x.fraction.length : Int) + x.exponent.getD 0)
  return if x.negative then -size else size

def toJson? (x : Numeral) : Option Json :=
  match x.int? with
  | some n => some (.int n)
  | none => x.double?.map fun size => .float size.toBits

end Numeral

/-- The text of a finite double. Each is a multiple of `2 ^ -1074`, so 1074 decimal places hold all
of it. -/
def floatText (bits : UInt64) : String :=
  let sign := if bits >>> 63 = 0 then "" else "-"
  let exponent := ((bits >>> 52) &&& 0x7FF).toNat
  let mantissa := (bits &&& 0xFFFFFFFFFFFFF).toNat + if exponent = 0 then 0 else Nat.pow 2 52
  let scaled := mantissa * Nat.pow 2 (exponent - 1) * Nat.pow 5 1074
  let unit := Nat.pow 10 1074
  let rest := Nat.toDigits 10 (scaled % unit)
  let places := List.replicate (1074 - rest.length) '0' ++ rest
  let shown := (places.reverse.dropWhile (· = '0')).reverse
  sign ++ toString (scaled / unit) ++ "." ++ if shown = [] then "0" else String.ofList shown

end Statechart.Json
