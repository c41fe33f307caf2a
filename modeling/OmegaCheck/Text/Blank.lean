import OmegaCheck.Text.CodeRanges

/-!
# Blanks

A blank is a character with the Unicode property White_Space. `trimChars` removes the blanks at both
ends of a text.
-/

namespace OmegaCheck.Text

/-- The code points of white space. -/
def blankRanges : CodeRanges :=
  [(0x9, 0xd), (0x20, 0x20), (0x85, 0x85), (0xa0, 0xa0), (0x1680, 0x1680), (0x2000, 0x200a),
   (0x2028, 0x2029), (0x202f, 0x202f), (0x205f, 0x205f), (0x3000, 0x3000)]

def isBlank (c : Char) : Bool := blankRanges.covers c

def dropBlanks (cs : List Char) : List Char := cs.dropWhile isBlank

def trimChars (cs : List Char) : List Char := (dropBlanks (dropBlanks cs).reverse).reverse

end OmegaCheck.Text
