/-!
# Decimal text

Integers are written in decimal with a minus sign for the negative ones, lists of texts with a
separator between neighbours.
-/

namespace OmegaCheck.Text

def decimal : Int → String
  | .ofNat n => n.repr
  | .negSucc n => "-" ++ (n + 1).repr

/-- The texts in order, `separator` between each two. -/
def separated (separator : String) : List String → String
  | [] => ""
  | [s] => s
  | s :: t :: rest => s ++ separator ++ separated separator (t :: rest)

end OmegaCheck.Text
