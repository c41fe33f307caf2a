import OmegaCheck.Text.Decimal

/-!
# Expressions

Expressions over 64-bit integer variables, with the text of each. Operators bind in five levels;
all of them associate to the left, and a comparison inside a comparison is always put in
parentheses. The text has the fewest parentheses that keep this reading.
-/

namespace OmegaCheck

/-- The binary operators. -/
inductive BinOp where
  | or | and
  | eq | ne | lt | le | gt | ge
  | add | sub
  | mul | div | mod
  deriving DecidableEq

namespace BinOp

def symbol : BinOp → String
  | or => "||"
  | and => "&&"
  | eq => "=="
  | ne => "!="
  | lt => "<"
  | le => "<="
  | gt => ">"
  | ge => ">="
  | add => "+"
  | sub => "-"
  | mul => "*"
  | div => "/"
  | mod => "%"

/-- How tightly the operator binds, from 1 for `||` to 5 for `*`. -/
def level : BinOp → Nat
  | or => 1
  | and => 2
  | eq | ne | lt | le | gt | ge => 3
  | add | sub => 4
  | mul | div | mod => 5

def isComparison (op : BinOp) : Bool := op.level == 3

end BinOp

/-- Integer expressions; truth is a value other than zero. -/
inductive Expr where
  | int (n : Int64)
  | bool (b : Bool)
  | var (name : String)
  | neg (e : Expr)
  | not (e : Expr)
  | binary (op : BinOp) (lhs rhs : Expr)
  deriving DecidableEq

namespace Expr

/-- How tightly the outermost operator binds: unary ones at 6, and 7 if there is none. -/
def level : Expr → Nat
  | int _ | bool _ | var _ => 7
  | neg _ | not _ => 6
  | binary op _ _ => op.level

/-- An operand's text, in parentheses where its position asks for them. -/
def operandText (parenthesized : Bool) (text : String) : String :=
  if parenthesized then "(" ++ text ++ ")" else text

def text : Expr → String
  | int n => Text.decimal n.toInt
  | bool true => "true"
  | bool false => "false"
  | var name => name
  | neg e => "-" ++ operandText (e.level < 6) e.text
  | not e => "!" ++ operandText (e.level < 6) e.text
  | binary op lhs rhs =>
    operandText (lhs.level < op.level || (op.isComparison && lhs.level == op.level)) lhs.text ++
      " " ++ op.symbol ++ " " ++ operandText (rhs.level ≤ op.level) rhs.text

end Expr

end OmegaCheck
