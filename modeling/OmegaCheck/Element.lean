import Std.Data.ExtTreeSet
import Std.Data.ExtTreeMap

/-!
# Elements

Whatever a model is made of (states, actions, propositions, locations, port names) comes with one
lawful total order. Finite sets and maps are kept sorted by it, so that two of them are equal
exactly when they have the same members.
-/

namespace OmegaCheck

/-- A type with a total order in which only equal values compare as equal. -/
class Element (α : Type) extends Ord α where
  transitive : Std.TransOrd α
  separating : Std.LawfulEqOrd α

attribute [instance] Element.transitive Element.separating

namespace Element

theorem compare_eq_iff {α : Type} [Element α] {a b : α} : compare a b = .eq ↔ a = b :=
  Std.LawfulEqCmp.compare_eq_iff_eq

/-- Equality of elements is decided by their order. -/
instance (priority := low) decidableEq {α : Type} [Element α] : DecidableEq α := fun _ _ =>
  decidable_of_iff _ compare_eq_iff

/-- The order pulled back along an injective function. -/
@[reducible]
def ofInjective {α β : Type} [Element β] (f : α → β) (inj : ∀ a b, f a = f b → a = b) :
    Element α where
  compare := compareOn f
  transitive := inferInstanceAs (Std.TransCmp (compareOn f))
  separating :=
    { compare_self := fun {a} => compare_eq_iff.mpr (Eq.refl (f a))
      eq_of_compare := fun h => inj _ _ (compare_eq_iff.mp h) }

instance : Element Nat := ⟨inferInstance, inferInstance⟩

instance : Element Int := ⟨inferInstance, inferInstance⟩

instance : Element Int64 := ⟨inferInstance, inferInstance⟩

instance : Element Bool := ⟨inferInstance, inferInstance⟩

instance : Element Char := ⟨inferInstance, inferInstance⟩

instance : Element String := ⟨inferInstance, inferInstance⟩

/-- Lists are ordered lexicographically, a proper initial part first. -/
instance {α : Type} [Element α] : Element (List α) := ⟨inferInstance, inferInstance⟩

/-- Pairs are ordered by their first component, then by their second. -/
instance {α β : Type} [Element α] [Element β] : Element (α × β) where
  toOrd := lexOrd
  transitive := inferInstance
  separating := inferInstance

/-- The left summand comes before the right one. -/
protected def compareSum {α β : Type} [Element α] [Element β] : α ⊕ β → α ⊕ β → Ordering
  | .inl a, .inl b => compare a b
  | .inl _, .inr _ => .lt
  | .inr _, .inl _ => .gt
  | .inr a, .inr b => compare a b

theorem compareSum_self {α β : Type} [Element α] [Element β] (x : α ⊕ β) :
    Element.compareSum x x = .eq := by
  cases x with
  | inl a => exact compare_eq_iff.mpr rfl
  | inr b => exact compare_eq_iff.mpr rfl

theorem compareSum_swap {α β : Type} [Element α] [Element β] (x y : α ⊕ β) :
    Element.compareSum x y = (Element.compareSum y x).swap := by
  cases x with
  | inl a => cases y with
    | inl b => exact Std.OrientedOrd.eq_swap
    | inr b => rfl
  | inr a => cases y with
    | inl b => rfl
    | inr b => exact Std.OrientedOrd.eq_swap

theorem compareSum_trans {α β : Type} [Element α] [Element β] {x y z : α ⊕ β}
    (hxy : (Element.compareSum x y).isLE) (hyz : (Element.compareSum y z).isLE) :
    (Element.compareSum x z).isLE := by
  match x, y, z with
  | .inl _, .inl _, .inl _ => exact Std.TransOrd.isLE_trans hxy hyz
  | .inl _, _, .inr _ => rfl
  | .inl _, .inr _, .inl _ => cases hyz
  | .inr _, .inl _, _ => cases hxy
  | .inr _, .inr _, .inl _ => cases hyz
  | .inr _, .inr _, .inr _ => exact Std.TransOrd.isLE_trans hxy hyz

theorem eq_of_compareSum {α β : Type} [Element α] [Element β] {x y : α ⊕ β}
    (h : Element.compareSum x y = .eq) : x = y := by
  match x, y with
  | .inl _, .inl _ => rw [compare_eq_iff.mp h]
  | .inl _, .inr _ => cases h
  | .inr _, .inl _ => cases h
  | .inr _, .inr _ => rw [compare_eq_iff.mp h]

instance {α β : Type} [Element α] [Element β] : Element (α ⊕ β) where
  compare := Element.compareSum
  transitive :=
    { eq_swap := compareSum_swap _ _
      isLE_trans := compareSum_trans }
  separating :=
    { compare_self := fun {x} => compareSum_self x
      eq_of_compare := eq_of_compareSum }

end Element

end OmegaCheck
