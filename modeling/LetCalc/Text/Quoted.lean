/-!
# Quoted text

A text between double quotes in which quotes, backslashes and control characters are written as
escapes, so that it stays on one line.
-/

namespace LetCalc

/-- Whether the character is a control character: below a space, or from delete up to U+009F. -/
def isControl (c : Char) : Bool := c.toNat < 0x20 || (0x7f ≤ c.toNat && c.toNat < 0xa0)

/-- A code point as an escape: lower-case hexadecimal digits between braces. -/
def codePointEscape (c : Char) : String :=
  "\\u\x7b" ++ String.ofList (Nat.toDigits 16 c.toNat) ++ "\x7d"

/-- A character as it is written between double quotes. -/
def quotedChar (c : Char) : String :=
  if c = '\x22' then "\\\""
  else if c = '\\' then "\\\\"
  else if c = '\n' then "\\n"
  else if c = '\r' then "\\r"
  else if c = '\t' then "\\t"
  else if c = '\x00' then "\\0"
  else if isControl c then codePointEscape c
  else c.toString

/-- A text between double quotes, its special characters escaped. -/
def quoted (text : String) : String :=
  "\"" ++ text.foldl (fun out c => out ++ quotedChar c) "" ++ "\""

end LetCalc
