import OmegaCheck.Gate
import OmegaCheck.Proofs.StateSpace
import Mathlib.Algebra.Ring.Nat
import Mathlib.Data.List.Dedup
import Mathlib.Data.List.Forall2

/-!
# Generated sets

Subsets, tuples and values of ports are generated by loops that rebuild all they have found for each
further item. A loop has found everything there is to find of the items so far, and each of it once,
if that was so before the last item.
-/

namespace OmegaCheck

/-- A loop over distinct items keeps what every further item keeps. -/
theorem foldl_of_nodup {α β : Type} {P : List α → β → Prop} {f : β → α → β} {b : β} {l : List α}
    (hl : l.Nodup) (hnil : P [] b)
    (hstep : ∀ done found a, a ∉ done → P done found → P (done ++ [a]) (f found a)) :
    P l (l.foldl f b) := by
  induction l using List.reverseRecOn with
  | nil => exact hnil
  | append_singleton done a ih =>
    obtain ⟨hdone, _, ha⟩ := List.nodup_append.mp hl
    rw [List.foldl_append]
    exact hstep _ _ _ (fun hmem => ha a hmem a (by simp) rfl) (ih hdone)

namespace FinSet

variable {α : Type} [Element α]

theorem eq_of_insert_eq {s t : FinSet α} {a : α} (hs : a ∉ s) (ht : a ∉ t)
    (h : s.insert a = t.insert a) : s = t := by
  refine ext fun b => ?_
  by_cases hb : b = a
  · subst hb
    exact iff_of_false hs ht
  · have hmem : b ∈ s.insert a ↔ b ∈ t.insert a := by rw [h]
    simpa [hb] using hmem

theorem insert_erase {s : FinSet α} {a : α} (h : a ∈ s) : (s.erase a).insert a = s := by
  refine ext fun b => ?_
  rw [mem_insert, mem_erase]
  by_cases hb : b = a
  · simp [hb, h]
  · simp [hb]

/-- All subsets of the listed items, each of them once. -/
structure ListsSubsets (items : List α) (found : List (FinSet α)) : Prop where
  mem_iff : ∀ s : FinSet α, s ∈ found ↔ ∀ a ∈ s, a ∈ items
  nodup : found.Nodup
  length : found.length = 2 ^ items.length

theorem ListsSubsets.nil : ListsSubsets ([] : List α) [∅] where
  mem_iff s := by
    rw [List.mem_singleton]
    constructor
    · rintro rfl a ha
      exact absurd ha (not_mem_empty a)
    · intro h
      exact ext fun a => iff_of_false (fun ha => List.not_mem_nil (h a ha)) (not_mem_empty a)
  nodup := List.nodup_singleton ∅
  length := rfl

/-- The subsets of one more item: those without it and those with it. -/
theorem ListsSubsets.extended {items : List α} {found : List (FinSet α)}
    (h : ListsSubsets items found) {a : α} (ha : a ∉ items) :
    ListsSubsets (items ++ [a]) (found ++ found.map fun s => s.insert a) := by
  have hfresh : ∀ s ∈ found, a ∉ s := fun s hs hmem => ha ((h.mem_iff s).mp hs a hmem)
  constructor
  case mem_iff =>
    intro s
    rw [List.mem_append, List.mem_map]
    constructor
    · rintro (hs | ⟨t, ht, rfl⟩) b hb
      · exact List.mem_append_left _ ((h.mem_iff s).mp hs b hb)
      · rcases mem_insert.mp hb with rfl | hb
        · simp
        · exact List.mem_append_left _ ((h.mem_iff t).mp ht b hb)
    · intro hs
      by_cases hmem : a ∈ s
      · refine Or.inr ⟨s.erase a, (h.mem_iff _).mpr fun b hb => ?_, insert_erase hmem⟩
        obtain ⟨hne, hb⟩ := mem_erase.mp hb
        simpa [hne] using hs b hb
      · refine Or.inl ((h.mem_iff s).mpr fun b hb => ?_)
        have hne : b ≠ a := fun he => hmem (he ▸ hb)
        simpa [hne] using hs b hb
  case nodup =>
    refine h.nodup.append (h.nodup.map_on fun s hs t ht => ?_) fun s hs hs' => ?_
    · exact eq_of_insert_eq (hfresh s hs) (hfresh t ht)
    · obtain ⟨t, _, rfl⟩ := List.mem_map.mp hs'
      exact hfresh _ hs (mem_insert.mpr (Or.inl rfl))
  case length => rw [List.length_append, List.length_map, h.length, List.length_append,
    List.length_singleton, Nat.pow_succ, Nat.mul_two]

theorem listsSubsets_powerset (s : FinSet α) : ListsSubsets s.toList s.powerset :=
  foldl_of_nodup s.toList_nodup .nil fun _ _ _ ha h => h.extended ha

/-- The loop goes on with each tuple found so far, by a member of each further set. -/
theorem mem_foldl_choices {sets : List (FinSet α)} {found : FinSet (List α)} {l : List α} :
    l ∈ sets.foldl (fun found s => found.flatMap fun t => s.toList.map fun a => t ++ [a]) found ↔
      ∃ t ∈ found, ∃ u, List.Forall₂ (fun s a => a ∈ s) sets u ∧ l = t ++ u := by
  induction sets generalizing found with
  | nil => simp
  | cons s sets ih =>
    rw [List.foldl_cons, ih]
    constructor
    · rintro ⟨_, hfound, u, hu, rfl⟩
      obtain ⟨t, ht, hmem⟩ := mem_flatMap.mp hfound
      obtain ⟨a, ha, rfl⟩ := List.mem_map.mp hmem
      exact ⟨t, ht, a :: u, .cons (mem_toList.mp ha) hu, by simp⟩
    · rintro ⟨t, ht, _, hau, rfl⟩
      obtain ⟨a, u, ha, hu, rfl⟩ := List.forall₂_cons_left_iff.mp hau
      refine ⟨t ++ [a], mem_flatMap.mpr ⟨t, ht, ?_⟩, u, hu, by simp⟩
      exact List.mem_map.mpr ⟨a, mem_toList.mpr ha, rfl⟩

theorem mem_choices {sets : List (FinSet α)} {l : List α} :
    l ∈ choices sets ↔ List.Forall₂ (fun s a => a ∈ s) sets l := by
  rw [choices, mem_foldl_choices]
  simp

theorem mem_choices_iff_getElem {sets : List (FinSet α)} {l : List α} :
    l ∈ choices sets ↔
      ∃ h : l.length = sets.length, ∀ k (hk : k < l.length), l[k] ∈ sets[k] := by
  rw [mem_choices, List.forall₂_iff_get]
  constructor
  · rintro ⟨hlength, hmem⟩
    exact ⟨hlength.symm, fun k hk => hmem k (hlength ▸ hk) hk⟩
  · rintro ⟨hlength, hmem⟩
    exact ⟨hlength.symm, fun k _ hk => hmem k hk⟩

theorem exists_mem_choices {sets : List (FinSet α)} (h : ∅ ∉ sets) : ∃ l, l ∈ choices sets := by
  simp only [mem_choices]
  induction sets with
  | nil => exact ⟨[], .nil⟩
  | cons s sets ih =>
    obtain ⟨l, hl⟩ := ih fun hmem => h (List.mem_cons_of_mem s hmem)
    have hs : ∃ a, a ∈ s := by
      by_contra hnone
      exact h (List.mem_cons.mpr (Or.inl (ext fun a => iff_of_false (not_mem_empty a)
        fun ha => hnone ⟨a, ha⟩)))
    obtain ⟨a, ha⟩ := hs
    exact ⟨a :: l, .cons ha hl⟩

/-- There is no choice exactly if some set has no member. -/
theorem choices_eq_empty_iff {sets : List (FinSet α)} : choices sets = ∅ ↔ ∅ ∈ sets := by
  constructor
  · intro h
    by_contra hmem
    obtain ⟨l, hl⟩ := exists_mem_choices hmem
    rw [h] at hl
    exact not_mem_empty l hl
  · intro h
    obtain ⟨k, hk, hempty⟩ := List.getElem_of_mem h
    refine ext fun l => iff_of_false (fun hl => ?_) (not_mem_empty l)
    obtain ⟨hlength, hmem⟩ := mem_choices_iff_getElem.mp hl
    have hnone := hmem k (hlength ▸ hk)
    rw [hempty] at hnone
    exact not_mem_empty _ hnone

end FinSet

namespace PortValues

/-- The values are those of exactly the named ports. -/
def Assigns (names : FinSet String) (v : PortValues) : Prop :=
  ∀ name, (v.get? name).isSome = true ↔ name ∈ names

/-- Each of the values, with `name` low and with `name` high. -/
def extended (found : List PortValues) (name : String) : List PortValues :=
  found.flatMap fun v => [v.insert name false, v.insert name true]

theorem mem_pair {v w : PortValues} {name : String} :
    w ∈ [v.insert name false, v.insert name true] ↔ ∃ b, v.insert name b = w := by
  simp [Bool.exists_bool, eq_comm]

theorem mem_extended {found : List PortValues} {name : String} {w : PortValues} :
    w ∈ extended found name ↔ ∃ v ∈ found, ∃ b, v.insert name b = w := by
  simp only [extended, List.mem_flatMap, mem_pair]

theorem eq_of_insert_eq {v w : PortValues} {name : String} {a b : Bool}
    (hv : v.get? name = none) (hw : w.get? name = none) (h : v.insert name a = w.insert name b) :
    v = w := by
  refine FinMap.ext fun x => ?_
  by_cases hx : x = name
  · rw [hx, hv, hw]
  · have hget := congrArg (FinMap.get? · x) h
    simpa [FinMap.get?_insert, hx] using hget

/-- All values of the listed ports, each of them once. -/
structure IsAll (names : List String) (found : List PortValues) : Prop where
  mem_iff : ∀ v : PortValues, v ∈ found ↔ ∀ x, (v.get? x).isSome = true ↔ x ∈ names
  nodup : found.Nodup
  length : found.length = 2 ^ names.length

theorem IsAll.nil : IsAll [] [∅] where
  mem_iff v := by
    rw [List.mem_singleton]
    constructor
    · rintro rfl x
      simp
    · intro h
      refine FinMap.ext fun x => ?_
      simpa using h x
  nodup := List.nodup_singleton ∅
  length := rfl

theorem IsAll.extended {names : List String} {found : List PortValues} (h : IsAll names found)
    {name : String} (hname : name ∉ names) : IsAll (names ++ [name]) (extended found name) := by
  have hnone : ∀ v ∈ found, v.get? name = none := by
    intro v hv
    have hiff := (h.mem_iff v).mp hv name
    simpa [hname] using hiff
  constructor
  case mem_iff =>
    intro v
    rw [mem_extended]
    constructor
    · rintro ⟨w, hw, b, rfl⟩ x
      rw [FinMap.get?_insert, List.mem_append, List.mem_singleton, ← (h.mem_iff w).mp hw x]
      by_cases hx : x = name <;> simp [hx]
    · intro hv
      obtain ⟨b, hb⟩ := Option.isSome_iff_exists.mp ((hv name).mpr (by simp))
      refine ⟨v.erase name, (h.mem_iff _).mpr fun x => ?_, b, FinMap.ext fun x => ?_⟩
      · rw [FinMap.get?_erase]
        by_cases hx : x = name
        · simp [hx, hname]
        · simpa [hx] using hv x
      · rw [FinMap.get?_insert, FinMap.get?_erase]
        by_cases hx : x = name <;> simp [hx, hb]
  case nodup =>
    refine List.nodup_flatMap.mpr ⟨fun v hv => ?_, ?_⟩
    · refine List.nodup_cons.mpr ⟨fun heq => ?_, List.nodup_singleton _⟩
      have hget := congrArg (FinMap.get? · name) (List.mem_singleton.mp heq)
      simp at hget
    · refine h.nodup.imp_of_mem fun {v w} hv hw hne => ?_
      intro u hu hu'
      obtain ⟨a, ha⟩ := mem_pair.mp hu
      obtain ⟨b, hb⟩ := mem_pair.mp hu'
      exact hne (eq_of_insert_eq (hnone v hv) (hnone w hw) (ha.trans hb.symm))
  case length =>
    simp [PortValues.extended, List.length_flatMap, h.length, Nat.pow_succ]

theorem isAll_all (names : FinSet String) : IsAll names.toList (all names) :=
  foldl_of_nodup names.toList_nodup .nil fun _ _ _ hname h => h.extended hname

theorem mem_all {names : FinSet String} {v : PortValues} : v ∈ all names ↔ Assigns names v := by
  rw [(isAll_all names).mem_iff]
  simp only [FinSet.mem_toList]
  rfl

theorem length_all (names : FinSet String) : (all names).length = 2 ^ names.size := by
  rw [(isAll_all names).length, FinSet.length_toList]

end PortValues

/-- Subsets, tuples and values of ports are all generated, each of them once. -/
theorem generators_exact {α : Type} [Element α] :
    (∀ items : List α,
      (∀ s, s ∈ (FinSet.ofList items).powerset ↔ ∀ a ∈ s, a ∈ items) ∧
      (FinSet.ofList items).powerset.Nodup ∧
      (FinSet.ofList items).powerset.length = 2 ^ items.dedup.length) ∧
    FinSet.choices [] = (FinSet.ofList [[]] : FinSet (List α)) ∧
    (∀ sets : List (FinSet α),
      (FinSet.choices sets = ∅ ↔ ∅ ∈ sets) ∧
      ∀ tuple, tuple ∈ FinSet.choices sets ↔
        ∃ h : tuple.length = sets.length, ∀ k (hk : k < tuple.length), tuple[k] ∈ sets[k]) ∧
    (∀ names : FinSet String,
      (∀ v, v ∈ PortValues.all names ↔ PortValues.Assigns names v) ∧
      (PortValues.all names).Nodup ∧ (PortValues.all names).length = 2 ^ names.size) := by
  refine ⟨fun items => ?_, rfl, fun sets => ?_, fun names => ?_⟩
  · have hlists := FinSet.listsSubsets_powerset (FinSet.ofList items)
    have hsize : (FinSet.ofList items).size = items.dedup.length :=
      FinSet.size_eq_length items.nodup_dedup fun a => by
        rw [FinSet.mem_ofList, List.mem_dedup]
    refine ⟨fun s => ?_, hlists.nodup, ?_⟩
    · simpa using hlists.mem_iff s
    · rw [hlists.length, FinSet.length_toList, hsize]
  · exact ⟨FinSet.choices_eq_empty_iff, fun _ => FinSet.mem_choices_iff_getElem⟩
  · exact ⟨fun _ => PortValues.mem_all, (PortValues.isAll_all names).nodup,
      PortValues.length_all names⟩

end OmegaCheck
