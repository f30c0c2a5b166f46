/-! Two rules for text. An ID that is blank names nothing: it is reported as missing and takes no part
in look-ups between elements. Blank means that every character has the property White_Space, which
is wider than the ASCII blanks. Quoted text is a string between double quotes, the form in which a
context describes the IDs and the path it holds. -/

namespace Statechart.Text

/-- The code points with the property White_Space, as ranges with both ends included. -/
def whiteSpaceRanges : List (Nat × Nat) :=
  [(0x09, 0x0D), (0x20, 0x20), (0x85, 0x85), (0xA0, 0xA0), (0x1680, 0x1680), (0x2000, 0x200A),
    (0x2028, 0x2029), (0x202F, 0x202F), (0x205F, 0x205F), (0x3000, 0x3000)]

def isWhiteSpace (c : Char) : Bool :=
  whiteSpaceRanges.any fun range => range.1 ≤ c.toNat && c.toNat ≤ range.2

def isBlank (s : String) : Bool := s.toList.all isWhiteSpace

/-- Twenty-five code points are blank. -/
example : (whiteSpaceRanges.map fun range => range.2 + 1 - range.1).sum = 25 := by decide

/-- The digits of a code point in lower-case hexadecimal, without leading zeros. -/
def hexadecimal (n : Nat) : String := String.ofList (Nat.toDigits 16 n)

/-- A character in quoted text, with a backslash before what would end the text or could not be
seen; a control character without a short form is written as its code point between braces. Only
ASCII is covered: a character beyond it stands as it is, also where it cannot be seen or joins the
character before it. -/
def quotedChar (c : Char) : String :=
  if c = '"' then "\\\""
  else if c = '\\' then "\\\\"
  else if c = '\n' then "\\n"
  else if c = '\r' then "\\r"
  else if c = '\t' then "\\t"
  else if c.toNat = 0 then "\\0"
  else if c.toNat < 0x20 ∨ c.toNat = 0x7F then "\\u\x7b" ++ hexadecimal c.toNat ++ "\x7d"
  else c.toString

/-- The quoted form of an ASCII text. -/
def quoted (s : String) : String := "\"" ++ String.join (s.toList.map quotedChar) ++ "\""

end Statechart.Text
