import OmegaCheck.Program.ParseError
import OmegaCheck.Text.Blank
import OmegaCheck.Text.Letter
import OmegaCheck.Text.Numeric

/-!
# Lexemes

Program text is cut into lexemes: tokens with the part of the text they stand in, as byte offsets of
its UTF-8 form. Between lexemes there are only blanks and comments, which run from `//` to the end of
the line. Digits are ASCII; identifiers are made of letters, numeric characters and underscores.
-/

namespace OmegaCheck

/-- A token and the bytes `start` to `stop` of the text it is spelled by. -/
structure Lexeme where
  token : Token
  start : Nat
  stop : Nat
  deriving DecidableEq

namespace Lexeme

/-- The number of bytes of a text in UTF-8. -/
def byteLength : List Char → Nat
  | [] => 0
  | c :: cs => c.utf8Size + byteLength cs

/-- Passes over blanks and comments; `inComment` tells whether a comment is under way. -/
def skipGap (inComment : Bool) (offset : Nat) : List Char → Nat × List Char
  | [] => (offset, [])
  | c :: cs =>
    if inComment then skipGap (c ≠ '\n') (offset + c.utf8Size) cs
    else if Text.isBlank c then skipGap false (offset + c.utf8Size) cs
    else if c = '/' && cs.head? = some '/' then skipGap true (offset + c.utf8Size) cs
    else (offset, c :: cs)

theorem length_skipGap_le (inComment : Bool) (offset : Nat) (cs : List Char) :
    (skipGap inComment offset cs).2.length ≤ cs.length := by
  induction cs generalizing inComment offset with
  | nil => simp [skipGap]
  | cons c cs ih =>
    simp only [skipGap, List.length_cons]
    split
    · exact Nat.le_succ_of_le (ih _ _)
    · split
      · exact Nat.le_succ_of_le (ih _ _)
      · split
        · exact Nat.le_succ_of_le (ih _ _)
        · exact Nat.le_refl _

def startsWord (c : Char) : Bool := Text.isLetter c || c = '_'

def continuesWord (c : Char) : Bool := Text.isLetter c || Text.isNumeric c || c = '_'

/-- Literals are read up to this magnitude. -/
def literalLimit : Nat := Nat.pow 2 64

/-- The token at the front of `c :: cs`, and how many characters of `cs` belong to it. -/
def scan (c : Char) (cs : List Char) : Except ParseFault (Token × Nat) :=
  if c.isDigit then
    let digits := c :: cs.takeWhile Char.isDigit
    let magnitude := Nat.ofDigitChars 10 digits 0
    if magnitude < literalLimit then .ok (.int magnitude, digits.length - 1)
    else .error (.literalOutOfRange (String.ofList digits))
  else if startsWord c then
    let word := c :: cs.takeWhile continuesWord
    .ok (Token.ofWord (String.ofList word), word.length - 1)
  else
    match cs.head?.bind (Token.ofTwo? c) with
    | some token => .ok (token, 1)
    | none =>
      match Token.ofOne? c with
      | some token => .ok (token, 0)
      | none => .error (.unexpectedCharacter c)

/-- The lexemes of a text that begins at byte `offset`. -/
def lexFrom (offset : Nat) (cs : List Char) : Except ParseError (List Lexeme) :=
  match _h : skipGap false offset cs with
  | (_, []) => .ok []
  | (start, c :: rest) =>
    match scan c rest with
    | .error fault => .error ⟨start, fault⟩
    | .ok (token, n) =>
      let stop := start + byteLength (c :: rest.take n)
      (lexFrom stop (rest.drop n)).map (⟨token, start, stop⟩ :: ·)
termination_by cs.length
decreasing_by
  have hle := length_skipGap_le false offset cs
  rw [_h] at hle
  simp only [List.length_cons, List.length_drop] at hle ⊢
  omega

/-- Cuts a text into its lexemes. -/
def lex (source : String) : Except ParseError (List Lexeme) := lexFrom 0 source.toList

end Lexeme

end OmegaCheck
