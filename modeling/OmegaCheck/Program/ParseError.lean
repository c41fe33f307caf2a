import OmegaCheck.Program.Token

/-!
# Parse errors

Why a program text is refused, and where: the position is a byte offset into the text's UTF-8 form.
-/

namespace OmegaCheck

/-- What the grammar allows at some point of a text. -/
inductive Expected where
  | token (token : Token)
  | identifier
  | expression
  | statement
  /-- The sign that says what is done with the variable or channel just named. -/
  | operation
  | endOfInput
  deriving DecidableEq

namespace Expected

def text : Expected → String
  | token t => "'" ++ t.spelling ++ "'"
  | identifier => "identifier"
  | expression => "expression"
  | statement => "statement"
  | operation => "':=', '?' or '!'"
  | endOfInput => "end of input"

end Expected

inductive ParseFault where
  | unexpectedCharacter (c : Char)
  | literalOutOfRange (literal : String)
  | unexpectedToken (expected : Expected) (found : Option Token)
  deriving DecidableEq

namespace ParseFault

def text : ParseFault → String
  | unexpectedCharacter c => "unexpected character " ++ Text.quotedChar c
  | literalOutOfRange literal => "integer literal " ++ literal ++ " out of range"
  | unexpectedToken expected found =>
    "expected " ++ expected.text ++ ", found " ++ Token.nameOrEnd found

end ParseFault

structure ParseError where
  offset : Nat
  fault : ParseFault
  deriving DecidableEq

def ParseError.message (e : ParseError) : String :=
  "parse error at offset " ++ e.offset.repr ++ ": " ++ e.fault.text

end OmegaCheck
