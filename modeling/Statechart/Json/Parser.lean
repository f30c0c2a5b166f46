import Statechart.Json.Fields
import Statechart.Json.Number

/-! Values from JSON text. Each reader takes what it reads off the front of the text and answers
with the rest. The whole text has to be one value. The fields of an object are put in ascending order
of keys, so their order in the text does not matter; where a key repeats, the last value under it
counts. -/

namespace Statechart.Json

namespace Parser

def skipBlanks (text : List Char) : List Char :=
  text.dropWhile fun c => c = ' ' || c = '\n' || c = '\r' || c = '\t'

def hexValue? (c : Char) : Option Nat :=
  if '0' ≤ c ∧ c ≤ '9' then some (c.toNat - '0'.toNat)
  else if 'a' ≤ c ∧ c ≤ 'f' then some (c.toNat - 'a'.toNat + 10)
  else if 'A' ≤ c ∧ c ≤ 'F' then some (c.toNat - 'A'.toNat + 10)
  else none

/-- The 16-bit unit that four digits name. -/
def unit? (a b c d : Char) : Option Nat := do
  return ((← hexValue? a) * 16 + (← hexValue? b)) * 256 + ((← hexValue? c) * 16 + (← hexValue? d))

/-- The character that a letter after a backslash stands for. -/
def unescaped? : Char → Option Char
  | '"' => some '"'
  | '\\' => some '\\'
  | '/' => some '/'
  | 'b' => some '\x08'
  | 'f' => some '\x0c'
  | 'n' => some '\n'
  | 'r' => some '\r'
  | 't' => some '\t'
  | _ => none

/-- The character that a pair of units makes, the high one first. -/
def paired? (high low : Nat) : Option Char :=
  if 0xDC00 ≤ low ∧ low < 0xE000 then
    some (Char.ofNat (0x10000 + (high - 0xD800) * 0x400 + (low - 0xDC00)))
  else none

/-- The rest of a string up to its closing quote, after the characters in `read`, the last of them
first. A unit of a pair does not stand alone. -/
def string? (read : List Char) : List Char → Option (String × List Char)
  | [] => none
  | '"' :: rest => some (String.ofList read.reverse, rest)
  | '\\' :: 'u' :: a :: b :: c :: d :: rest =>
    match unit? a b c d with
    | none => none
    | some unit =>
      if unit < 0xD800 ∨ 0xE000 ≤ unit then string? (Char.ofNat unit :: read) rest
      else if 0xDC00 ≤ unit then none
      else
        match rest with
        | '\\' :: 'u' :: e :: f :: g :: h :: rest =>
          match (unit? e f g h).bind (paired? unit) with
          | none => none
          | some x => string? (x :: read) rest
        | _ => none
  | '\\' :: c :: rest =>
    match unescaped? c with
    | none => none
    | some x => string? (x :: read) rest
  | c :: rest => if c.toNat < 0x20 ∨ c = '\\' then none else string? (c :: read) rest

def isDigit (c : Char) : Bool := '0' ≤ c && c ≤ '9'

/-- The digits at the front of a text. -/
def digits (text : List Char) : List Nat × List Char :=
  ((text.takeWhile isDigit).map (·.toNat - '0'.toNat), text.dropWhile isDigit)

/-- Digits of which there must be one at least. -/
def digits? (text : List Char) : Option (List Nat × List Char) :=
  match digits text with
  | ([], _) => none
  | found => some found

/-- The digits of a whole number, which has no zero in front. -/
def whole? (text : List Char) : Option (List Nat × List Char) :=
  match digits? text with
  | some (0 :: _ :: _, _) => none
  | found => found

def fraction? : List Char → Option (List Nat × List Char)
  | '.' :: rest => digits? rest
  | text => some ([], text)

def exponentDigits? (negative : Bool) (text : List Char) : Option (Option Int × List Char) := do
  let (found, rest) ← digits? text
  let n : Int := Numeral.value found
  return (some (if negative then -n else n), rest)

def exponent? : List Char → Option (Option Int × List Char)
  | 'e' :: '-' :: rest | 'E' :: '-' :: rest => exponentDigits? true rest
  | 'e' :: '+' :: rest | 'E' :: '+' :: rest => exponentDigits? false rest
  | 'e' :: rest | 'E' :: rest => exponentDigits? false rest
  | text => some (none, text)

def unsigned? (negative : Bool) (text : List Char) : Option (Json × List Char) := do
  let (whole, rest) ← whole? text
  let (fraction, rest) ← fraction? rest
  let (exponent, rest) ← exponent? rest
  return (← Numeral.toJson? { negative, whole, fraction, exponent }, rest)

def number? : List Char → Option (Json × List Char)
  | '-' :: rest => unsigned? true rest
  | text => unsigned? false text

/-- A key and the text behind its colon. -/
def key? (text : List Char) : Option (String × List Char) :=
  match skipBlanks text with
  | '"' :: rest => do
    let (key, rest) ← string? [] rest
    match skipBlanks rest with
    | ':' :: rest => some (key, rest)
    | _ => none
  | _ => none

mutual

/-- A value, with blanks before it or not. Every call takes one off the fuel, and every second one
takes a character off the text. -/
def value? : (fuel : Nat) → List Char → Option (Json × List Char)
  | 0, _ => none
  | fuel + 1, text =>
    match skipBlanks text with
    | '[' :: rest =>
      match skipBlanks rest with
      | ']' :: rest => some (arr [], rest)
      | _ => items? fuel [] rest
    | '\x7b' :: rest =>
      match skipBlanks rest with
      | '\x7d' :: rest => some (obj [], rest)
      | _ => fields? fuel [] rest
    | '"' :: rest => (string? [] rest).map fun found => (str found.1, found.2)
    | 'n' :: 'u' :: 'l' :: 'l' :: rest => some (null, rest)
    | 't' :: 'r' :: 'u' :: 'e' :: rest => some (bool true, rest)
    | 'f' :: 'a' :: 'l' :: 's' :: 'e' :: rest => some (bool false, rest)
    | rest => number? rest

/-- The items of an array up to its end, after those in `read`, the last of them first. -/
def items? : (fuel : Nat) → (read : List Json) → List Char → Option (Json × List Char)
  | 0, _, _ => none
  | fuel + 1, read, text =>
    match value? fuel text with
    | none => none
    | some (x, rest) =>
      match skipBlanks rest with
      | ',' :: rest => items? fuel (x :: read) rest
      | ']' :: rest => some (arr (x :: read).reverse, rest)
      | _ => none

/-- The fields of an object up to its end, after those in `read`. -/
def fields? : (fuel : Nat) → (read : List (String × Json)) → List Char → Option (Json × List Char)
  | 0, _, _ => none
  | fuel + 1, read, text =>
    match key? text with
    | none => none
    | some (key, rest) =>
      match value? fuel rest with
      | none => none
      | some (x, rest) =>
        match skipBlanks rest with
        | ',' :: rest => fields? fuel (putField key x read) rest
        | '\x7d' :: rest => some (obj (putField key x read), rest)
        | _ => none

end

end Parser

def parse? (text : String) : Option Json :=
  match Parser.value? (2 * text.length + 2) text.toList with
  | some (j, rest) => if Parser.skipBlanks rest = [] then some j else none
  | none => none

end Statechart.Json
