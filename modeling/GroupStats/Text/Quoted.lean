import GroupStats.Text.Escapes

/-!
# Quoted text

The quoted form of a text, as debug descriptions show names: the text between double quotes,
with a backslash before a double quote or a backslash, the short escapes for NUL, tab,
carriage return and line feed, and every other character that `isEscaped` lists written as
its code point in hexadecimal between braces.
-/

namespace GroupStats

namespace Quoted

/-- Lowercase hexadecimal digits of a number, without leading zeros. -/
def hex (n : Nat) : String :=
  String.ofList (Nat.toDigits 16 n)

/-- The written form of one character inside the quotes. -/
def escapeChar (c : Char) : String :=
  if c = '"' then "\\\""
  else if c = '\\' then "\\\\"
  else if c.toNat = 0 then "\\0"
  else if c = '\t' then "\\t"
  else if c = '\r' then "\\r"
  else if c = '\n' then "\\n"
  else if isEscaped c.toNat then "\\u\x7b" ++ hex c.toNat ++ "\x7d"
  else c.toString

/-- The quoted form of a text. -/
def quote (s : String) : String :=
  "\"" ++ String.join (s.toList.map escapeChar) ++ "\""

/-- The quoted form of a list of texts: brackets, with ", " between the quoted items. -/
def quoteList (xs : List String) : String :=
  "[" ++ ", ".intercalate (xs.map quote) ++ "]"

end Quoted

end GroupStats
