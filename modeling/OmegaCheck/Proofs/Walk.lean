import Mathlib.Data.List.Chain
import Mathlib.Order.Bounds.Basic
import Mathlib.Order.Preorder.Finite

/-!
# Walks

Walks along a relation, counted by their steps. Over a finite set of states an infinite walk that
meets a condition again and again meets it on a cycle; conversely a walk to a state on a cycle goes
on for ever and passes that state again and again.
-/

namespace OmegaCheck

inductive Walk {S : Type} (R : S → S → Prop) : S → Nat → S → Prop where
  | nil (x : S) : Walk R x 0 x
  | snoc {x y z : S} {n : Nat} (h : Walk R x n y) (hz : R y z) : Walk R x (n + 1) z

/-- Whether a walk of at least one step leads from a state back to it. -/
def OnCycle {S : Type} (R : S → S → Prop) (x : S) : Prop := ∃ n, Walk R x (n + 1) x

namespace Walk

variable {S : Type} {R : S → S → Prop} {x y z : S} {m n : Nat}

theorem append (h : Walk R x m y) (k : Walk R y n z) : Walk R x (m + n) z := by
  induction k with
  | nil => exact h
  | snoc _ hz ih => exact ih.snoc hz

theorem cons (h : R x y) (k : Walk R y n z) : Walk R x (n + 1) z := by
  rw [Nat.add_comm]
  exact ((nil x).snoc h).append k

theorem eq_of_zero (h : Walk R x 0 y) : x = y := by
  cases h
  rfl

theorem cases_head (h : Walk R x (n + 1) z) : ∃ y, R x y ∧ Walk R y n z := by
  induction n generalizing z with
  | zero =>
    cases h with
    | snoc h hz =>
      obtain rfl := eq_of_zero h
      exact ⟨z, hz, nil z⟩
  | succ n ih =>
    cases h with
    | snoc h hz =>
      obtain ⟨y, hy, k⟩ := ih h
      exact ⟨y, hy, k.snoc hz⟩

theorem mono {T : S → S → Prop} (h : Walk R x n y) (hRT : ∀ a b, R a b → T a b) : Walk T x n y := by
  induction h with
  | nil => exact nil _
  | snoc _ hz ih => exact ih.snoc (hRT _ _ hz)

/-- Whatever the steps preserve holds at the end of a walk. -/
theorem invariant {p : S → Prop} (h : Walk R x n y) (hx : p x) (hp : ∀ a b, p a → R a b → p b) :
    p y := by
  induction h with
  | nil => exact hx
  | snoc _ hz ih => exact hp _ _ ih hz

/-- First one part of a pair goes all its way, then the other one. -/
theorem invariant_pair {T : Type} {R' : T → T → Prop} {u v : T} {m : Nat} {p : S × T → Prop}
    (h : Walk R x n y) (h' : Walk R' u m v) (hp : p (x, u))
    (hleft : ∀ a b, p (a, u) → R a b → p (b, u)) (hright : ∀ a b, p (y, a) → R' a b → p (y, b)) :
    p (y, v) :=
  h'.invariant (p := fun b => p (y, b)) (h.invariant (p := fun a => p (a, u)) hp hleft) hright

theorem of_sequence (f : Nat → S) (hf : ∀ i, R (f i) (f (i + 1))) (i n : Nat) :
    Walk R (f i) n (f (i + n)) := by
  induction n with
  | zero => exact nil _
  | succ n ih => exact ih.snoc (hf (i + n))

theorem exists_function (h : Walk R x n y) :
    ∃ f : Nat → S, f 0 = x ∧ f n = y ∧ ∀ i < n, R (f i) (f (i + 1)) := by
  induction h with
  | nil => exact ⟨fun _ => x, rfl, rfl, fun i hi => absurd hi (Nat.not_lt_zero i)⟩
  | @snoc y z n _ hz ih =>
    obtain ⟨f, h0, hn, hf⟩ := ih
    refine ⟨fun i => if i ≤ n then f i else z, ?_, ?_, ?_⟩
    · simpa using h0
    · simp
    · intro i hi
      by_cases hin : i = n
      · subst hin
        simpa [hn, Nat.not_succ_le_self] using hz
      · have hlt : i < n := by omega
        simpa [hlt.le, Nat.succ_le_of_lt hlt] using hf i hlt

/-- A cycle is gone round for ever. -/
theorem exists_periodic (h : Walk R x (n + 1) x) :
    ∃ f : Nat → S, (∀ k, f (k * (n + 1)) = x) ∧ ∀ i, R (f i) (f (i + 1)) := by
  obtain ⟨f, h0, hn, hf⟩ := h.exists_function
  refine ⟨fun i => f (i % (n + 1)), fun k => by simpa using h0, fun i => ?_⟩
  have hlt : i % (n + 1) < n + 1 := Nat.mod_lt i n.succ_pos
  have hstep := hf (i % (n + 1)) hlt
  have hmod : (i + 1) % (n + 1) = (i % (n + 1) + 1) % (n + 1) := (Nat.mod_add_mod i (n + 1) 1).symm
  change R (f (i % (n + 1))) (f ((i + 1) % (n + 1)))
  by_cases hlast : i % (n + 1) = n
  · rw [hmod, hlast, Nat.mod_self, h0, ← hn]
    rwa [hlast] at hstep
  · have hsucc : i % (n + 1) + 1 < n + 1 := by omega
    rwa [hmod, Nat.mod_eq_of_lt hsucc]

theorem exists_recurrent (h : Walk R x m y) (c : OnCycle R y) :
    ∃ f : Nat → S, f 0 = x ∧ (∀ i, R (f i) (f (i + 1))) ∧ ∀ k, ∃ i, k ≤ i ∧ f i = y := by
  obtain ⟨n, c⟩ := c
  obtain ⟨g, g0, gm, hg⟩ := h.exists_function
  obtain ⟨l, hy, hl⟩ := c.exists_periodic
  have hl0 : l 0 = y := by simpa using hy 0
  refine ⟨fun i => if i < m then g i else l (i - m), ?_, ?_, ?_⟩
  · rcases Nat.eq_zero_or_pos m with rfl | hm
    · simpa [hl0] using gm.symm.trans g0
    · simpa [hm] using g0
  · intro i
    rcases Nat.lt_trichotomy (i + 1) m with hi | hi | hi
    · simpa [hi, Nat.lt_of_succ_lt hi] using hg i (Nat.lt_of_succ_lt hi)
    · subst hi
      simpa [hl0, ← gm] using hg i (Nat.lt_succ_self i)
    · have hge : m ≤ i := Nat.lt_succ_iff.mp hi
      have hsub : i + 1 - m = i - m + 1 := by omega
      simpa [Nat.not_lt.mpr hge, Nat.not_lt.mpr hi.le, hsub] using hl (i - m)
  · intro k
    refine ⟨m + k * (n + 1), ?_, ?_⟩
    · exact (Nat.le_mul_of_pos_right k n.succ_pos).trans (Nat.le_add_left _ m)
    · simpa [Nat.not_lt.mpr (Nat.le_add_right m (k * (n + 1)))] using hy k

/-- By the pigeonhole principle: two of the indices at which `p` holds carry the same state. -/
theorem exists_onCycle_of_sequence (f : Nat → S) (hf : ∀ i, R (f i) (f (i + 1))) {U : Set S}
    (hU : U.Finite) (hfU : ∀ i, f i ∈ U) {p : S → Prop} (hp : ∀ n, ∃ i, n ≤ i ∧ p (f i)) :
    ∃ i, p (f i) ∧ OnCycle R (f i) := by
  have hinf : Set.Infinite {i | p (f i)} := by
    refine Set.infinite_of_forall_exists_gt fun n => ?_
    obtain ⟨i, hi, hpi⟩ := hp (n + 1)
    exact ⟨i, hpi, hi⟩
  obtain ⟨i, hi, j, _, hij, he⟩ := hinf.exists_lt_map_eq_of_mapsTo (fun i _ => hfU i) hU
  refine ⟨i, hi, j - i - 1, ?_⟩
  have hwalk := of_sequence f hf i (j - i)
  rw [Nat.add_sub_cancel' hij.le, ← he] at hwalk
  rwa [Nat.sub_add_cancel (Nat.sub_pos_of_lt hij)]

end Walk

end OmegaCheck
