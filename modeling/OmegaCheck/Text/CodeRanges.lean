/-!
# Ranges of code points

A class of characters beyond ASCII is given by its closed ranges of code points, in increasing order.
-/

namespace OmegaCheck.Text

/-- Closed ranges of code points. -/
abbrev CodeRanges := List (Nat × Nat)

def CodeRanges.covers (ranges : CodeRanges) (c : Char) : Bool :=
  ranges.any fun r => r.1 ≤ c.toNat && c.toNat ≤ r.2

end OmegaCheck.Text
