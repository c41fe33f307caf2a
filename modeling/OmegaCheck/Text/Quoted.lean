import OmegaCheck.Text.Combining
import OmegaCheck.Text.Invisible

/-!
# Quoted text

A text inside a message stands between quotation marks. The mark itself, the backslash and every
character that cannot be seen on its own are escaped, so that the quoted text shows exactly what it
holds.
-/

namespace OmegaCheck.Text

/-- A character by its code point, `\u` and hexadecimal digits in braces. -/
def codeEscape (c : Char) : List Char :=
  '\\' :: 'u' :: '\x7b' :: (Nat.toDigits 16 c.toNat ++ ['\x7d'])

/-- One character between the quotation marks `mark`. -/
def escaped (mark c : Char) : List Char :=
  if c = '\x00' then ['\\', '0']
  else if c = '\t' then ['\\', 't']
  else if c = '\r' then ['\\', 'r']
  else if c = '\n' then ['\\', 'n']
  else if c = '\\' || c = mark then ['\\', c]
  else if isCombining c || isInvisible c then codeEscape c
  else [c]

/-- A text between double quotation marks. -/
def quoted (s : String) : String :=
  String.ofList ('"' :: (s.toList.flatMap (escaped '"') ++ ['"']))

/-- A character between single quotation marks. -/
def quotedChar (c : Char) : String :=
  String.ofList ('\x27' :: (escaped '\x27' c ++ ['\x27']))

end OmegaCheck.Text
