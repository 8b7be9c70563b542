import HeavyHitters.Text.Glyphless

/-!
# Quoted text

A text between double quotes, with every character that would break the quotation or would not be
seen written as an escape.  Letters of any script stay as they are.
-/

namespace HeavyHitters.Text

/-- The lowercase hexadecimal digits of a number, at least one. -/
def hexDigits (n : Nat) : List Char := Nat.toDigits 16 n

/-- How one character is written inside a quotation. -/
def escape (c : Char) : List Char :=
  if c = '"' then ['\\', '"']
  else if c = '\\' then ['\\', '\\']
  else if c = '\t' then ['\\', 't']
  else if c = '\n' then ['\\', 'n']
  else if c = '\x0d' then ['\\', 'r']
  else if c = '\x00' then ['\\', '0']
  else if isGlyphless c then ['\\', 'u', '\x7b'] ++ hexDigits c.toNat ++ ['\x7d']
  else [c]

/-- The text between double quotes, its special characters escaped. -/
def quoted (text : String) : String :=
  String.ofList ('"' :: text.toList.flatMap escape ++ ['"'])

end HeavyHitters.Text
