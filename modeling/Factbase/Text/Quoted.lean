import Factbase.Text.Printable

/-!
# Quoted texts

A text between quotes, with everything that could be mistaken for
something else escaped: the quote itself, the backslash, line feed,
carriage return, tabulator and null by a letter, and every other
character that is not printable or extends a grapheme by its code point
in lower-case hexadecimal.
-/

namespace Factbase

/-- A number in lower-case hexadecimal without leading zeros. -/
def hexText (n : Nat) : String := String.ofList (Nat.toDigits 16 n)

/-- One character as it stands between two `quote`s. -/
def escapeChar (quote : Char) (c : Char) : String :=
  if c = quote then String.ofList ['\\', c]
  else if c = '\\' then "\\\\"
  else if c = '\n' then "\\n"
  else if c = '\r' then "\\r"
  else if c = '\t' then "\\t"
  else if c = '\x00' then "\\0"
  else if isPrintable c && !extendsGrapheme c then String.singleton c
  else "\\u\x7b" ++ hexText c.toNat ++ "\x7d"

/-- The text in double quotes. -/
def quoted (s : String) : String :=
  "\"" ++ String.join (s.toList.map (escapeChar '"')) ++ "\""

/-- The character in single quotes. -/
def quotedChar (c : Char) : String := "'" ++ escapeChar '\'' c ++ "'"

end Factbase
