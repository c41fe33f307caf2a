import OmegaCheck.FinSet

/-!
# Finite maps

A finite map from elements to values, listed in increasing order of its keys by `toList`. The
values at the keys determine a map: `FinMap.ext`.
-/

namespace OmegaCheck

/-- A finite map, kept sorted by the order of its keys. -/
def FinMap (κ : Type) [Element κ] (β : Type) : Type := Std.ExtTreeMap κ β compare

namespace FinMap

variable {κ β : Type} [Element κ]

def get? (m : FinMap κ β) (k : κ) : Option β := Std.ExtTreeMap.get? m k

theorem ext {m n : FinMap κ β} (h : ∀ k, m.get? k = n.get? k) : m = n :=
  Std.ExtTreeMap.ext_getElem? h

def empty : FinMap κ β := Std.ExtTreeMap.empty

instance : EmptyCollection (FinMap κ β) := ⟨empty⟩

instance : Inhabited (FinMap κ β) := ⟨∅⟩

@[simp] theorem get?_empty (k : κ) : (∅ : FinMap κ β).get? k = none :=
  Std.ExtTreeMap.getElem?_empty

/-- Binds `k` to `v` in place of an earlier value. -/
def insert (m : FinMap κ β) (k : κ) (v : β) : FinMap κ β := Std.ExtTreeMap.insert m k v

theorem get?_insert [DecidableEq κ] (m : FinMap κ β) (k l : κ) (v : β) :
    (m.insert k v).get? l = if l = k then some v else m.get? l := by
  have h : (m.insert k v).get? l = if compare k l = .eq then some v else m.get? l :=
    Std.ExtTreeMap.getElem?_insert
  rw [h]
  by_cases e : l = k
  · rw [if_pos e, if_pos (Element.compare_eq_iff.mpr e.symm)]
  · rw [if_neg e, if_neg fun c => e (Element.compare_eq_iff.mp c).symm]

@[simp] theorem get?_insert_self (m : FinMap κ β) (k : κ) (v : β) :
    (m.insert k v).get? k = some v := by
  rw [get?_insert, if_pos rfl]

/-- Replaces what `k` is bound to, if anything; `f` may also bind or unbind it. -/
def alter (m : FinMap κ β) (k : κ) (f : Option β → Option β) : FinMap κ β :=
  Std.ExtTreeMap.alter m k f

theorem get?_alter [DecidableEq κ] (m : FinMap κ β) (k l : κ) (f : Option β → Option β) :
    (m.alter k f).get? l = if l = k then f (m.get? k) else m.get? l := by
  have h : (m.alter k f).get? l = if compare k l = .eq then f (m.get? k) else m.get? l :=
    Std.ExtTreeMap.getElem?_alter
  rw [h]
  by_cases e : l = k
  · rw [if_pos e, if_pos (Element.compare_eq_iff.mpr e.symm)]
  · rw [if_neg e, if_neg fun c => e (Element.compare_eq_iff.mp c).symm]

def erase (m : FinMap κ β) (k : κ) : FinMap κ β := m.alter k fun _ => none

theorem get?_erase [DecidableEq κ] (m : FinMap κ β) (k l : κ) :
    (m.erase k).get? l = if l = k then none else m.get? l :=
  get?_alter m k l fun _ => none

/-- The bindings in increasing order of their keys. -/
def toList (m : FinMap κ β) : List (κ × β) := Std.ExtTreeMap.toList m

@[simp] theorem mem_toList {m : FinMap κ β} {k : κ} {v : β} :
    (k, v) ∈ m.toList ↔ m.get? k = some v :=
  Std.ExtTreeMap.mem_toList_iff_getElem?_eq_some

theorem toList_injective {m n : FinMap κ β} (h : m.toList = n.toList) : m = n :=
  ext fun k => Option.ext fun v => by rw [← mem_toList, h, mem_toList]

def size (m : FinMap κ β) : Nat := Std.ExtTreeMap.size m

def isEmpty (m : FinMap κ β) : Bool := m.toList.isEmpty

/-- The bindings of a list; the last one of a repeated key counts. -/
def ofList (l : List (κ × β)) : FinMap κ β := l.foldl (fun m b => m.insert b.1 b.2) ∅

/-- The keys in increasing order. -/
def keys (m : FinMap κ β) : List κ := m.toList.map Prod.fst

theorem length_keys (m : FinMap κ β) : m.keys.length = m.size := by
  rw [keys, List.length_map]
  exact Std.ExtTreeMap.length_toList

/-- Collects the values of each key, in the order of the list. -/
def group (l : List (κ × β)) : FinMap κ (List β) :=
  l.foldr (fun b m => m.insert b.1 (b.2 :: (m.get? b.1).getD [])) ∅

/-- The values collected for a key. -/
def values (m : FinMap κ (List β)) (k : κ) : List β := (m.get? k).getD []

theorem mem_values_group {l : List (κ × β)} {k : κ} {v : β} :
    v ∈ (group l).values k ↔ (k, v) ∈ l := by
  induction l with
  | nil => simp [group, values]
  | cons b l ih =>
    have h : group (b :: l) = (group l).insert b.1 (b.2 :: ((group l).get? b.1).getD []) := rfl
    rw [values, h, get?_insert, List.mem_cons]
    by_cases e : k = b.1
    · subst e
      rw [if_pos rfl, Option.getD_some, List.mem_cons, ← ih, values, Prod.ext_iff]
      simp
    · rw [if_neg e, ← values, ih, Prod.ext_iff]
      simp [e]

section Members

variable [Element β]

/-- The set kept for a key; a key without a set has no members. -/
def members (m : FinMap κ (FinSet β)) (k : κ) : FinSet β := (m.get? k).getD ∅

def addMember (m : FinMap κ (FinSet β)) (k : κ) (b : β) : FinMap κ (FinSet β) :=
  m.alter k fun found => some ((found.getD ∅).insert b)

def removeMember (m : FinMap κ (FinSet β)) (k : κ) (b : β) : FinMap κ (FinSet β) :=
  m.alter k fun found => found.map fun s => s.erase b

variable {m : FinMap κ (FinSet β)} {k l : κ} {b c : β}

theorem mem_members : b ∈ m.members k ↔ ∃ s, m.get? k = some s ∧ b ∈ s := by
  rw [members]
  cases m.get? k <;> simp

theorem mem_members_addMember :
    c ∈ (m.addMember k b).members l ↔ l = k ∧ c = b ∨ c ∈ m.members l := by
  rw [members, addMember, get?_alter]
  by_cases e : l = k
  · subst e
    simp [members]
  · simp [e, members]

theorem mem_members_removeMember :
    c ∈ (m.removeMember k b).members l ↔ ¬ (l = k ∧ c = b) ∧ c ∈ m.members l := by
  rw [members, removeMember, get?_alter]
  by_cases e : l = k
  · subst e
    cases h : m.get? l <;> simp [members, h]
  · simp [e, members]

theorem mem_members_erase : c ∈ (m.erase k).members l ↔ l ≠ k ∧ c ∈ m.members l := by
  rw [members, erase, get?_alter]
  by_cases e : l = k
  · simp [e]
  · simp [e, members]

end Members

/-- Maps are ordered as the lists of their bindings. -/
instance [Element β] : Element (FinMap κ β) :=
  Element.ofInjective toList fun _ _ => toList_injective

end FinMap

end OmegaCheck
