import OmegaCheck.Memory
import OmegaCheck.ProgramGraph.LocationText

/-!
# Data

One type for everything that models from outside use as states, actions, locations and propositions:
texts, integers, characters, pairs and lists of data, memories and port values. Data of different
kinds differ, and the kinds are ordered as they are listed.
-/

namespace OmegaCheck

inductive Datum where
  | text (s : String)
  | int (n : Int)
  | char (c : Char)
  | pair (first second : Datum)
  | list (items : List Datum)
  | memory (m : Memory)
  | ports (values : FinMap String Bool)

namespace Datum

/-- The position of a datum's kind. -/
def rank : Datum → Nat
  | text _ => 0
  | int _ => 1
  | char _ => 2
  | pair _ _ => 3
  | list _ => 4
  | memory _ => 5
  | ports _ => 6

mutual
/-- Kinds first; data of one kind by their parts, lexicographically. -/
def order : Datum → Datum → Ordering
  | text a, text b => compare a b
  | int a, int b => compare a b
  | char a, char b => compare a b
  | pair a b, pair c d => (order a c).then (order b d)
  | list l, list m => orderList l m
  | memory a, memory b => compare a b
  | ports a, ports b => compare a b
  | a, b => compare a.rank b.rank

def orderList : List Datum → List Datum → Ordering
  | [], [] => .eq
  | [], _ :: _ => .lt
  | _ :: _, [] => .gt
  | a :: l, b :: m => (order a b).then (orderList l m)
end

theorem order_of_rank_ne {a b : Datum} (h : a.rank ≠ b.rank) :
    order a b = compare a.rank b.rank := by
  cases a <;> cases b <;> simp_all [order, rank]

mutual
theorem order_self : (a : Datum) → order a a = .eq
  | text _ | int _ | char _ | memory _ | ports _ => by
    simp [order]
  | pair a b => by simp [order, order_self a, order_self b]
  | list l => by simp [order, orderList_self l]

theorem orderList_self : (l : List Datum) → orderList l l = .eq
  | [] => by simp [orderList]
  | a :: l => by simp [orderList, order_self a, orderList_self l]
end

mutual
theorem eq_of_order : (a b : Datum) → order a b = .eq → a = b
  | text a, b, h => by cases b <;> simp_all [order, rank]
  | int a, b, h => by cases b <;> simp_all [order, rank]
  | char a, b, h => by cases b <;> simp_all [order, rank]
  | pair a b, c, h => by
    cases c <;> simp [order, rank, Ordering.then_eq_eq] at h
    rw [eq_of_order a _ h.1, eq_of_order b _ h.2]
  | list l, b, h => by
    cases b <;> simp [order, rank] at h
    rw [eq_of_orderList l _ h]
  | memory a, b, h => by cases b <;> simp_all [order, rank]
  | ports a, b, h => by cases b <;> simp_all [order, rank]

theorem eq_of_orderList : (l m : List Datum) → orderList l m = .eq → l = m
  | [], m, h => by cases m <;> simp_all [orderList]
  | a :: l, m, h => by
    cases m <;> simp [orderList, Ordering.then_eq_eq] at h
    rw [eq_of_order a _ h.1, eq_of_orderList l _ h.2]
end

mutual
theorem order_swap : (a b : Datum) → order a b = (order b a).swap
  | text a, b => by
    cases b <;> simp only [order, rank] <;> exact Std.OrientedOrd.eq_swap
  | int a, b => by
    cases b <;> simp only [order, rank] <;> exact Std.OrientedOrd.eq_swap
  | char a, b => by
    cases b <;> simp only [order, rank] <;> exact Std.OrientedOrd.eq_swap
  | pair a b, c => by
    cases c with
    | pair c d => simp only [order, Ordering.swap_then, order_swap a c, order_swap b d]
    | _ => exact Std.OrientedOrd.eq_swap
  | list l, b => by
    cases b with
    | list m => exact orderList_swap l m
    | _ => exact Std.OrientedOrd.eq_swap
  | memory a, b => by
    cases b <;> simp only [order, rank] <;> exact Std.OrientedOrd.eq_swap
  | ports a, b => by
    cases b <;> simp only [order, rank] <;> exact Std.OrientedOrd.eq_swap

theorem orderList_swap : (l m : List Datum) → orderList l m = (orderList m l).swap
  | [], m => by cases m <;> rfl
  | a :: l, m => by
    cases m with
    | nil => rfl
    | cons b m => simp only [orderList, Ordering.swap_then, order_swap a b, orderList_swap l m]
end

/-- What holds for the parts holds for two parts compared one after the other. -/
theorem then_trans {x y z x' y' z' : Ordering} (hx : x.isLE → y.isLE → z.isLE)
    (hlt : x.isLE → y.isLE → (x = .lt ∨ y = .lt) → z = .lt)
    (hx' : x'.isLE → y'.isLE → z'.isLE) (h : (x.then x').isLE) (h' : (y.then y').isLE) :
    (z.then z').isLE := by
  rw [Ordering.isLE_then_iff_and] at h h' ⊢
  refine ⟨hx h.1 h'.1, ?_⟩
  rcases h.2 with hl | hr
  · exact .inl (hlt h.1 h'.1 (.inl hl))
  · rcases h'.2 with hl' | hr'
    · exact .inl (hlt h.1 h'.1 (.inr hl'))
    · exact .inr (hx' hr hr')

/-- A strict comparison makes the composed one strict. -/
theorem order_lt_of {a b c : Datum} (h : (order a c).isLE) (hab : (order a b).isLE)
    (hbc : (order b c).isLE) (hs : order a b = .lt ∨ order b c = .lt) : order a c = .lt := by
  cases hac : order a c with
  | lt => rfl
  | gt => rw [hac] at h; cases h
  | eq =>
    have e := eq_of_order a c hac
    subst e
    rw [order_swap b a] at hbc hs
    cases hab' : order a b <;> simp_all

theorem rank_le_of_order {a b : Datum} (h : (order a b).isLE) : a.rank ≤ b.rank := by
  by_cases e : a.rank = b.rank
  · exact Nat.le_of_eq e
  · rw [order_of_rank_ne e] at h
    exact Nat.isLE_compare.mp h

theorem order_of_rank_lt {a b : Datum} (h : a.rank < b.rank) : order a b = .lt := by
  rw [order_of_rank_ne (Nat.ne_of_lt h)]
  exact Nat.compare_eq_lt.mpr h

theorem eq_text_of_rank {d : Datum} (h : d.rank = 0) : ∃ x, d = text x := by
  cases d with
  | text x => exact ⟨x, rfl⟩
  | _ => cases h

theorem eq_int_of_rank {d : Datum} (h : d.rank = 1) : ∃ x, d = int x := by
  cases d with
  | int x => exact ⟨x, rfl⟩
  | _ => cases h

theorem eq_char_of_rank {d : Datum} (h : d.rank = 2) : ∃ x, d = char x := by
  cases d with
  | char x => exact ⟨x, rfl⟩
  | _ => cases h

theorem eq_list_of_rank {d : Datum} (h : d.rank = 4) : ∃ x, d = list x := by
  cases d with
  | list x => exact ⟨x, rfl⟩
  | _ => cases h

theorem eq_memory_of_rank {d : Datum} (h : d.rank = 5) : ∃ x, d = memory x := by
  cases d with
  | memory x => exact ⟨x, rfl⟩
  | _ => cases h

theorem eq_ports_of_rank {d : Datum} (h : d.rank = 6) : ∃ x, d = ports x := by
  cases d with
  | ports x => exact ⟨x, rfl⟩
  | _ => cases h

theorem eq_pair_of_rank {d : Datum} (h : d.rank = 3) : ∃ x y, d = pair x y := by
  cases d with
  | pair x y => exact ⟨x, y, rfl⟩
  | _ => cases h

/-- Data that compare in a chain are of one kind, or the first kind is before the last. -/
theorem rank_chain {a b c : Datum} (hab : (order a b).isLE) (hbc : (order b c).isLE) :
    a.rank < c.rank ∨ b.rank = a.rank ∧ c.rank = a.rank := by
  have h₁ := rank_le_of_order hab
  have h₂ := rank_le_of_order hbc
  omega

theorem isLE_of_rank_lt {a b : Datum} (h : a.rank < b.rank) : (order a b).isLE := by
  rw [order_of_rank_lt h]
  rfl

mutual
theorem order_trans : (a b c : Datum) → (order a b).isLE → (order b c).isLE → (order a c).isLE
  | text _, b, c, hab, hbc => by
    rcases rank_chain hab hbc with h | ⟨hb, hc⟩
    · exact isLE_of_rank_lt h
    · obtain ⟨_, rfl⟩ := eq_text_of_rank hb
      obtain ⟨_, rfl⟩ := eq_text_of_rank hc
      exact Std.TransOrd.isLE_trans hab hbc
  | int _, b, c, hab, hbc => by
    rcases rank_chain hab hbc with h | ⟨hb, hc⟩
    · exact isLE_of_rank_lt h
    · obtain ⟨_, rfl⟩ := eq_int_of_rank hb
      obtain ⟨_, rfl⟩ := eq_int_of_rank hc
      exact Std.TransOrd.isLE_trans hab hbc
  | char _, b, c, hab, hbc => by
    rcases rank_chain hab hbc with h | ⟨hb, hc⟩
    · exact isLE_of_rank_lt h
    · obtain ⟨_, rfl⟩ := eq_char_of_rank hb
      obtain ⟨_, rfl⟩ := eq_char_of_rank hc
      exact Std.TransOrd.isLE_trans hab hbc
  | pair a a', b, c, hab, hbc => by
    rcases rank_chain hab hbc with h | ⟨hb, hc⟩
    · exact isLE_of_rank_lt h
    · obtain ⟨b, b', rfl⟩ := eq_pair_of_rank hb
      obtain ⟨c, c', rfl⟩ := eq_pair_of_rank hc
      exact then_trans (order_trans a b c)
        (fun h h' => order_lt_of (order_trans a b c h h') h h') (order_trans a' b' c') hab hbc
  | list l, b, c, hab, hbc => by
    rcases rank_chain hab hbc with h | ⟨hb, hc⟩
    · exact isLE_of_rank_lt h
    · obtain ⟨m, rfl⟩ := eq_list_of_rank hb
      obtain ⟨n, rfl⟩ := eq_list_of_rank hc
      exact orderList_trans l m n hab hbc
  | memory _, b, c, hab, hbc => by
    rcases rank_chain hab hbc with h | ⟨hb, hc⟩
    · exact isLE_of_rank_lt h
    · obtain ⟨_, rfl⟩ := eq_memory_of_rank hb
      obtain ⟨_, rfl⟩ := eq_memory_of_rank hc
      exact Std.TransOrd.isLE_trans hab hbc
  | ports _, b, c, hab, hbc => by
    rcases rank_chain hab hbc with h | ⟨hb, hc⟩
    · exact isLE_of_rank_lt h
    · obtain ⟨_, rfl⟩ := eq_ports_of_rank hb
      obtain ⟨_, rfl⟩ := eq_ports_of_rank hc
      exact Std.TransOrd.isLE_trans hab hbc

theorem orderList_trans :
    (l m n : List Datum) → (orderList l m).isLE → (orderList m n).isLE → (orderList l n).isLE
  | [], _, [], _, _ => rfl
  | [], _, _ :: _, _, _ => rfl
  | _ :: _, [], _, h, _ => by cases h
  | _ :: _, _ :: _, [], _, h => by cases h
  | a :: l, b :: m, c :: n, h, h' =>
    then_trans (order_trans a b c) (fun h h' => order_lt_of (order_trans a b c h h') h h')
      (orderList_trans l m n) h h'
end

instance : Element Datum where
  compare := order
  transitive :=
    { eq_swap := order_swap _ _
      isLE_trans := order_trans _ _ _ }
  separating :=
    { compare_self := order_self _
      eq_of_compare := eq_of_order _ _ }

mutual
def literalText : Datum → String
  | text s => literal s
  | int n => literal n
  | char c => literal c
  | pair a b => "(" ++ literalText a ++ ", " ++ literalText b ++ ")"
  | list l => Literal.bracketed (literalTexts l)
  | memory m => literal m
  | ports p => literal p

def literalTexts : List Datum → List String
  | [] => []
  | a :: l => literalText a :: literalTexts l
end

instance : Literal Datum := ⟨literalText⟩

/-- The text of a datum that stands on its own: a text or a character without quotes, a memory by its
bindings, and anything else as its literal. -/
def plainText : Datum → String
  | text s => s
  | char c => String.singleton c
  | memory m => m.text
  | d => literalText d

def locationName : Datum → String
  | pair a b => LocationText.pairText (locationName a) (locationName b)
  | d => plainText d

instance : LocationText Datum := ⟨locationName⟩

end Datum

end OmegaCheck
