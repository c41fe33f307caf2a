import OmegaCheck.FinMap
import OmegaCheck.Text.Decimal
import OmegaCheck.Text.Quoted

/-!
# Literals

How values are written inside messages, diagrams and counterexamples: texts and characters quoted,
integers in decimal, pairs in parentheses, lists in brackets, maps in braces.
-/

namespace OmegaCheck

class Literal (α : Type) where
  literal : α → String

export Literal (literal)

namespace Literal

instance : Literal String := ⟨Text.quoted⟩

instance : Literal Char := ⟨Text.quotedChar⟩

instance : Literal Int := ⟨Text.decimal⟩

instance : Literal Nat := ⟨fun n => Text.decimal n⟩

instance : Literal Bool := ⟨fun b => if b then "true" else "false"⟩

instance {α β : Type} [Literal α] [Literal β] : Literal (α × β) :=
  ⟨fun p => "(" ++ literal p.1 ++ ", " ++ literal p.2 ++ ")"⟩

def bracketed (items : List String) : String := "[" ++ Text.separated ", " items ++ "]"

def braced (items : List String) : String := "\x7b" ++ Text.separated ", " items ++ "\x7d"

instance {α : Type} [Literal α] : Literal (List α) := ⟨fun l => bracketed (l.map literal)⟩

instance {κ β : Type} [Element κ] [Literal κ] [Literal β] : Literal (FinMap κ β) :=
  ⟨fun m => braced (m.toList.map fun b => literal b.1 ++ ": " ++ literal b.2)⟩

end Literal

end OmegaCheck
