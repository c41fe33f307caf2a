import OmegaCheck.Program.Expr
import OmegaCheck.Text.Quoted

/-!
# Tokens

The words and signs of program text. A token has a spelling, in which programs contain it, and a
name, by which messages refer to it.
-/

namespace OmegaCheck

inductive Token where
  /-- The magnitude of an integer literal; a sign is a token of its own. -/
  | int (magnitude : Nat)
  | ident (name : String)
  | wordIf | wordFi | wordDo | wordOd | wordSkip | wordAtomic | wordTrue | wordFalse
  | doubleColon | arrow | assign | semicolon
  | leftBrace | rightBrace | leftParen | rightParen
  | question | bang | bar
  | op (op : BinOp)
  deriving DecidableEq

namespace Token

/-- The reserved words; every other word is an identifier. -/
def reserved : List (String × Token) :=
  [("if", wordIf), ("fi", wordFi), ("do", wordDo), ("od", wordOd), ("skip", wordSkip),
   ("atomic", wordAtomic), ("true", wordTrue), ("false", wordFalse)]

def ofWord (word : String) : Token := (reserved.lookup word).getD (ident word)

/-- The sign made of two characters. -/
def ofTwo? : Char → Char → Option Token
  | ':', ':' => some doubleColon
  | ':', '=' => some assign
  | '-', '>' => some arrow
  | '|', '|' => some (op .or)
  | '&', '&' => some (op .and)
  | '=', '=' => some (op .eq)
  | '!', '=' => some (op .ne)
  | '<', '=' => some (op .le)
  | '>', '=' => some (op .ge)
  | _, _ => none

/-- The sign made of one character. -/
def ofOne? : Char → Option Token
  | ';' => some semicolon
  | '\x7b' => some leftBrace
  | '\x7d' => some rightBrace
  | '(' => some leftParen
  | ')' => some rightParen
  | '?' => some question
  | '!' => some bang
  | '|' => some bar
  | '<' => some (op .lt)
  | '>' => some (op .gt)
  | '+' => some (op .add)
  | '-' => some (op .sub)
  | '*' => some (op .mul)
  | '/' => some (op .div)
  | '%' => some (op .mod)
  | _ => none

def spelling : Token → String
  | int magnitude => magnitude.repr
  | ident name => name
  | wordIf => "if"
  | wordFi => "fi"
  | wordDo => "do"
  | wordOd => "od"
  | wordSkip => "skip"
  | wordAtomic => "atomic"
  | wordTrue => "true"
  | wordFalse => "false"
  | doubleColon => "::"
  | arrow => "->"
  | assign => ":="
  | semicolon => ";"
  | leftBrace => "\x7b"
  | rightBrace => "\x7d"
  | leftParen => "("
  | rightParen => ")"
  | question => "?"
  | bang => "!"
  | bar => "|"
  | op o => o.symbol

def opName : BinOp → String
  | .or => "OrOr"
  | .and => "AndAnd"
  | .eq => "EqEq"
  | .ne => "NotEq"
  | .lt => "Lt"
  | .le => "Le"
  | .gt => "Gt"
  | .ge => "Ge"
  | .add => "Plus"
  | .sub => "Minus"
  | .mul => "Star"
  | .div => "Slash"
  | .mod => "Percent"

def name : Token → String
  | int magnitude => "Int(" ++ magnitude.repr ++ ")"
  | ident name => "Ident(" ++ Text.quoted name ++ ")"
  | wordIf => "If"
  | wordFi => "Fi"
  | wordDo => "Do"
  | wordOd => "Od"
  | wordSkip => "Skip"
  | wordAtomic => "Atomic"
  | wordTrue => "True"
  | wordFalse => "False"
  | doubleColon => "DoubleColon"
  | arrow => "Arrow"
  | assign => "Assign"
  | semicolon => "Semicolon"
  | leftBrace => "LBrace"
  | rightBrace => "RBrace"
  | leftParen => "LParen"
  | rightParen => "RParen"
  | question => "Question"
  | bang => "Bang"
  | bar => "Pipe"
  | op o => opName o

/-- The name of the token found, or of the end of the text. -/
def nameOrEnd : Option Token → String
  | some token => token.name
  | none => "Eof"

end Token

end OmegaCheck
