import OmegaCheck.Element

/-!
# Finite sets

A finite set of elements, listed in increasing order by `toList`. Membership determines a set:
`FinSet.ext`. Every operation is pinned down by the lemma `mem_…` that follows it.
-/

namespace OmegaCheck

/-- A finite set, kept sorted by the order of its elements. -/
def FinSet (α : Type) [Element α] : Type := Std.ExtTreeSet α compare

namespace FinSet

variable {α β γ : Type} [Element α] [Element β] [Element γ]

def contains (s : FinSet α) (a : α) : Bool := Std.ExtTreeSet.contains s a

instance : Membership α (FinSet α) := ⟨fun s a => s.contains a = true⟩

instance (a : α) (s : FinSet α) : Decidable (a ∈ s) :=
  inferInstanceAs (Decidable (s.contains a = true))

instance : DecidableEq (FinSet α) := inferInstanceAs (DecidableEq (Std.ExtTreeSet α compare))

@[simp] theorem contains_eq_true {s : FinSet α} {a : α} : s.contains a = true ↔ a ∈ s := Iff.rfl

theorem ext {s t : FinSet α} (h : ∀ a, a ∈ s ↔ a ∈ t) : s = t :=
  Std.ExtTreeSet.ext_mem h

def empty : FinSet α := Std.ExtTreeSet.empty

instance : EmptyCollection (FinSet α) := ⟨empty⟩

instance : Inhabited (FinSet α) := ⟨∅⟩

@[simp] theorem not_mem_empty (a : α) : a ∉ (∅ : FinSet α) :=
  Std.ExtTreeSet.not_mem_empty

def insert (s : FinSet α) (a : α) : FinSet α := Std.ExtTreeSet.insert s a

@[simp] theorem mem_insert {s : FinSet α} {a b : α} : b ∈ s.insert a ↔ b = a ∨ b ∈ s := by
  have h : b ∈ s.insert a ↔ compare a b = .eq ∨ b ∈ s := Std.ExtTreeSet.mem_insert
  rw [h, Element.compare_eq_iff, eq_comm]

def erase (s : FinSet α) (a : α) : FinSet α := Std.ExtTreeSet.erase s a

@[simp] theorem mem_erase {s : FinSet α} {a b : α} : b ∈ s.erase a ↔ b ≠ a ∧ b ∈ s := by
  have h : b ∈ s.erase a ↔ compare a b ≠ .eq ∧ b ∈ s := Std.ExtTreeSet.mem_erase
  rw [h, Ne, Element.compare_eq_iff, eq_comm]

/-- The members in increasing order. -/
def toList (s : FinSet α) : List α := Std.ExtTreeSet.toList s

@[simp] theorem mem_toList {s : FinSet α} {a : α} : a ∈ s.toList ↔ a ∈ s :=
  Std.ExtTreeSet.mem_toList

theorem toList_sorted (s : FinSet α) : s.toList.Pairwise fun a b => compare a b = .lt :=
  Std.ExtTreeSet.ordered_toList

theorem toList_nodup (s : FinSet α) : s.toList.Nodup :=
  (toList_sorted s).imp fun h e => by
    rw [Element.compare_eq_iff.mpr e] at h
    cases h

theorem toList_injective {s t : FinSet α} (h : s.toList = t.toList) : s = t :=
  ext fun a => by rw [← mem_toList, h, mem_toList]

def size (s : FinSet α) : Nat := Std.ExtTreeSet.size s

theorem length_toList (s : FinSet α) : s.toList.length = s.size :=
  Std.ExtTreeSet.length_toList

def isEmpty (s : FinSet α) : Bool := s.toList.isEmpty

def ofList (l : List α) : FinSet α := l.foldr (fun a s => s.insert a) ∅

@[simp] theorem mem_ofList {l : List α} {a : α} : a ∈ ofList l ↔ a ∈ l := by
  induction l with
  | nil => simp [ofList]
  | cons b l ih =>
    have h : a ∈ ofList (b :: l) ↔ a = b ∨ a ∈ ofList l := mem_insert
    rw [h, ih, List.mem_cons]

/-- Adds the members of a list. -/
def insertAll (s : FinSet α) (l : List α) : FinSet α := l.foldl insert s

@[simp] theorem mem_insertAll {s : FinSet α} {l : List α} {a : α} :
    a ∈ s.insertAll l ↔ a ∈ l ∨ a ∈ s := by
  induction l generalizing s with
  | nil => simp [insertAll]
  | cons b l ih =>
    have h : a ∈ s.insertAll (b :: l) ↔ a ∈ l ∨ a ∈ s.insert b := ih
    rw [h, mem_insert, List.mem_cons, or_left_comm, or_assoc]

def union (s t : FinSet α) : FinSet α := s.insertAll t.toList

instance : Union (FinSet α) := ⟨union⟩

@[simp] theorem mem_union {s t : FinSet α} {a : α} : a ∈ s ∪ t ↔ a ∈ s ∨ a ∈ t := by
  have h : a ∈ s ∪ t ↔ a ∈ t.toList ∨ a ∈ s := mem_insertAll
  rw [h, mem_toList, or_comm]

def filter (p : α → Bool) (s : FinSet α) : FinSet α := ofList (s.toList.filter p)

@[simp] theorem mem_filter {p : α → Bool} {s : FinSet α} {a : α} :
    a ∈ s.filter p ↔ a ∈ s ∧ p a = true := by
  simp [filter]

def diff (s t : FinSet α) : FinSet α := s.filter fun a => !t.contains a

instance : SDiff (FinSet α) := ⟨diff⟩

@[simp] theorem mem_diff {s t : FinSet α} {a : α} : a ∈ s \ t ↔ a ∈ s ∧ a ∉ t := by
  have h : a ∈ s \ t ↔ a ∈ s ∧ (!t.contains a) = true := mem_filter
  rw [h, Bool.not_eq_true', ← Bool.not_eq_true, contains_eq_true]

def image (f : α → β) (s : FinSet α) : FinSet β := ofList (s.toList.map f)

@[simp] theorem mem_image {f : α → β} {s : FinSet α} {b : β} :
    b ∈ s.image f ↔ ∃ a, a ∈ s ∧ f a = b := by
  simp [image]

/-- The images of the members on which `f` is defined. -/
def filterMap (f : α → Option β) (s : FinSet α) : FinSet β := ofList (s.toList.filterMap f)

@[simp] theorem mem_filterMap {f : α → Option β} {s : FinSet α} {b : β} :
    b ∈ s.filterMap f ↔ ∃ a, a ∈ s ∧ f a = some b := by
  simp [filterMap]

/-- The union of the lists `f a` over the members `a`. -/
def flatMap (f : α → List β) (s : FinSet α) : FinSet β := ofList (s.toList.flatMap f)

@[simp] theorem mem_flatMap {f : α → List β} {s : FinSet α} {b : β} :
    b ∈ s.flatMap f ↔ ∃ a, a ∈ s ∧ b ∈ f a := by
  simp [flatMap]

/-- All pairs of a member of the first set and one of the second. -/
def product (s : FinSet α) (t : FinSet β) : FinSet (α × β) :=
  s.flatMap fun a => t.toList.map fun b => (a, b)

@[simp] theorem mem_product {s : FinSet α} {t : FinSet β} {x : α × β} :
    x ∈ s.product t ↔ x.1 ∈ s ∧ x.2 ∈ t := by
  obtain ⟨a, b⟩ := x
  simp [product]

/-- All ways to pick one member of each set, in the order of the sets. -/
def choices (sets : List (FinSet α)) : FinSet (List α) :=
  sets.foldl (fun found s => found.flatMap fun tuple => s.toList.map fun a => tuple ++ [a])
    (ofList [[]])

/-- The subsets of the members of a list: those without its last entry come first. -/
def subsetsOf (l : List α) : List (FinSet α) :=
  l.foldl (fun found a => found ++ found.map fun s => s.insert a) [∅]

/-- All subsets; the ones without the greatest member come before the ones with it. -/
def powerset (s : FinSet α) : List (FinSet α) := subsetsOf s.toList

/-- Sets are ordered as the lists of their members. -/
instance : Element (FinSet α) := Element.ofInjective toList fun _ _ => toList_injective

end FinSet

end OmegaCheck
