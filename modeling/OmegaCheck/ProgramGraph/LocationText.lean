import OmegaCheck.Text.Decimal

/-!
# Texts of locations

A location's text is an atomic proposition of the states at that location. Locations of interleaved
program graphs are pairs, written in angle brackets.
-/

namespace OmegaCheck

class LocationText (L : Type) where
  locationText : L → String

export LocationText (locationText)

namespace LocationText

instance : LocationText String := ⟨id⟩

instance : LocationText Char := ⟨String.singleton⟩

instance : LocationText Int := ⟨Text.decimal⟩

instance : LocationText Nat := ⟨fun n => Text.decimal n⟩

/-- The text of a pair of locations. -/
def pairText (l m : String) : String := "<" ++ l ++ ", " ++ m ++ ">"

instance {L M : Type} [LocationText L] [LocationText M] : LocationText (L × M) :=
  ⟨fun l => pairText (locationText l.1) (locationText l.2)⟩

end LocationText

end OmegaCheck
