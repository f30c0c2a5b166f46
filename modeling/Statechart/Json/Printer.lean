import Statechart.Json.Number

/-! JSON text, either with one value a line, two blanks of indentation for each level and a blank
after the colon, or without any blanks. Nothing stands between the brackets of an empty array or
object. -/

namespace Statechart.Json

def hexDigit (n : Nat) : Char := "0123456789abcdef".toList.getD n '0'

/-- A character inside a string. Only a quote, a backslash and the characters below U+0020 are
escaped. -/
def escapedChar (c : Char) : String :=
  if c = '"' then "\\\""
  else if c = '\\' then "\\\\"
  else if c = '\n' then "\\n"
  else if c = '\r' then "\\r"
  else if c = '\t' then "\\t"
  else if c.toNat = 0x08 then "\\b"
  else if c.toNat = 0x0C then "\\f"
  else if c.toNat < 0x20 then
    "\\u00" ++ String.ofList [hexDigit (c.toNat / 16), hexDigit (c.toNat % 16)]
  else c.toString

def stringText (s : String) : String := "\"" ++ String.join (s.toList.map escapedChar) ++ "\""

/-- The blanks of a text. -/
structure Layout where
  /-- What stands before a value at a level of nesting. -/
  newline : Nat → String
  colon : String

def Layout.indented : Layout where
  newline level := "\n" ++ String.ofList (List.replicate (2 * level) ' ')
  colon := ": "

def Layout.compact : Layout where
  newline _ := ""
  colon := ":"

mutual

/-- The text of a value that stands at a level of nesting. -/
def render (l : Layout) (level : Nat) : Json → String
  | null => "null"
  | bool b => if b then "true" else "false"
  | int n => toString n
  | float bits => floatText bits
  | str s => stringText s
  | arr [] => "[]"
  | arr items => "[" ++ renderItems l (level + 1) items ++ l.newline level ++ "]"
  | obj [] => "\x7b\x7d"
  | obj fields => "\x7b" ++ renderFields l (level + 1) fields ++ l.newline level ++ "\x7d"

def renderItems (l : Layout) (level : Nat) : List Json → String
  | [] => ""
  | [x] => l.newline level ++ render l level x
  | x :: rest => l.newline level ++ render l level x ++ "," ++ renderItems l level rest

def renderFields (l : Layout) (level : Nat) : List (String × Json) → String
  | [] => ""
  | [(key, x)] => l.newline level ++ stringText key ++ l.colon ++ render l level x
  | (key, x) :: rest =>
    l.newline level ++ stringText key ++ l.colon ++ render l level x ++ ","
      ++ renderFields l level rest

end

def pretty (j : Json) : String := render .indented 0 j

def compact (j : Json) : String := render .compact 0 j

end Statechart.Json
