import OmegaCheck.Proofs.Exploration
import OmegaCheck.Proofs.StoreQuery

/-!
# Reachability in stores

From any seeds the search through the table of successors ends with the least set that holds the
seeds and is closed under transitions. It is monotone in the seeds, joins them independently and
gains nothing from a second search; and whatever is reached has a predecessor that is reached, found
in the other table.
-/

namespace OmegaCheck.TransitionStore

open TransitionSystem (Change)

variable {S A P : Type} [Element S] [Element A] [Element P] {st : TransitionStore S A P}
variable {seeds more : List S} {s t x : S}

theorem InStep.mem_next (h : st.InStep) (s t : S) : t ∈ st.next s ↔ st.toSystem.Joined s t := by
  have hout : ∀ a, (a, t) ∈ st.outgoing s ↔ ⟨s, a, t⟩ ∈ st.transitions := fun a =>
    h.successors s a t
  simp only [next, List.mem_map, FinSet.mem_toList, Prod.exists, exists_eq_right, hout]
  exact Iff.rfl

theorem InStep.mem_reachFrom (h : st.InStep) :
    x ∈ st.reachFrom seeds ↔ ∃ s ∈ seeds, ∃ n, Walk st.toSystem.Joined s n x := by
  rw [reachFrom, FinSet.mem_ofList]
  exact TransitionSystem.mem_order_iff h.mem_next

theorem InStep.mem_reachFrom_of_step (h : st.InStep) (hs : s ∈ st.reachFrom seeds) {a : A}
    (ht : ⟨s, a, t⟩ ∈ st.transitions) : t ∈ st.reachFrom seeds := by
  obtain ⟨r, hr, n, hwalk⟩ := h.mem_reachFrom.mp hs
  exact h.mem_reachFrom.mpr ⟨r, hr, n + 1, hwalk.snoc ⟨a, ht⟩⟩

/-- The search from any seeds gives what they lead to. -/
structure FindsReachable (st : TransitionStore S A P) : Prop where
  /-- However many more rounds the search is allowed, it has ended before. -/
  ends : ∀ seeds k, Search.order (seeds.length + st.transitions.size + k) st.next seeds =
    Search.order (seeds.length + st.transitions.size) st.next seeds
  mem_iff : ∀ seeds x, x ∈ st.reachFrom seeds ↔
    x ∈ seeds ∨ ∃ s ∈ seeds, ∃ n, Walk st.toSystem.Joined s (n + 1) x
  least : ∀ seeds, IsLeast {U : Set S | (∀ s ∈ seeds, s ∈ U) ∧
    ∀ s a t, s ∈ U → ⟨s, a, t⟩ ∈ st.transitions → t ∈ U} {x | x ∈ st.reachFrom seeds}
  mono : ∀ seeds more, (∀ s ∈ seeds, s ∈ more) → ∀ x, x ∈ st.reachFrom seeds → x ∈ st.reachFrom more
  union : ∀ seeds more, st.reachFrom (seeds ++ more) = st.reachFrom seeds ∪ st.reachFrom more
  again : ∀ seeds, st.reachFrom (st.reachFrom seeds).toList = st.reachFrom seeds
  predecessor : ∀ x, x ∈ st.reach → x ∉ st.initial →
    ∃ found, st.pre x = .ok found ∧ ∃ y, y ∈ found ∧ y ∈ st.reach

namespace InStep

theorem mem_reachFrom_iff (h : st.InStep) :
    x ∈ st.reachFrom seeds ↔
      x ∈ seeds ∨ ∃ s ∈ seeds, ∃ n, Walk st.toSystem.Joined s (n + 1) x := by
  rw [h.mem_reachFrom]
  constructor
  · rintro ⟨s, hs, n, hwalk⟩
    cases n with
    | zero =>
      obtain rfl := hwalk.eq_of_zero
      exact .inl hs
    | succ n => exact .inr ⟨s, hs, n, hwalk⟩
  · rintro (hx | ⟨s, hs, n, hwalk⟩)
    · exact ⟨x, hx, 0, .nil x⟩
    · exact ⟨s, hs, n + 1, hwalk⟩

theorem reachFrom_isLeast (h : st.InStep) (seeds : List S) :
    IsLeast {U : Set S | (∀ s ∈ seeds, s ∈ U) ∧
      ∀ s a t, s ∈ U → ⟨s, a, t⟩ ∈ st.transitions → t ∈ U} {x | x ∈ st.reachFrom seeds} := by
  refine ⟨⟨fun s hs => ?_, fun s a t hs ht => ?_⟩, ?_⟩
  · exact h.mem_reachFrom.mpr ⟨s, hs, 0, .nil s⟩
  · exact h.mem_reachFrom_of_step hs ht
  · rintro U ⟨hseeds, hclosed⟩ x hx
    obtain ⟨s, hs, n, hwalk⟩ := h.mem_reachFrom.mp hx
    exact hwalk.invariant (hseeds s hs) fun y z hy ⟨a, hz⟩ => hclosed y a z hy hz

theorem reachFrom_mono (h : st.InStep) (hsub : ∀ s ∈ seeds, s ∈ more) (hx : x ∈ st.reachFrom seeds) :
    x ∈ st.reachFrom more := by
  obtain ⟨s, hs, n, hwalk⟩ := h.mem_reachFrom.mp hx
  exact h.mem_reachFrom.mpr ⟨s, hsub s hs, n, hwalk⟩

theorem reachFrom_append (h : st.InStep) (seeds more : List S) :
    st.reachFrom (seeds ++ more) = st.reachFrom seeds ∪ st.reachFrom more := by
  refine FinSet.ext fun x => ?_
  rw [FinSet.mem_union, h.mem_reachFrom, h.mem_reachFrom, h.mem_reachFrom]
  simp only [List.mem_append, or_and_right, exists_or]

theorem reachFrom_reachFrom (h : st.InStep) (seeds : List S) :
    st.reachFrom (st.reachFrom seeds).toList = st.reachFrom seeds := by
  refine FinSet.ext fun x => ?_
  constructor
  · intro hx
    obtain ⟨s, hs, n, hwalk⟩ := h.mem_reachFrom.mp hx
    refine hwalk.invariant (FinSet.mem_toList.mp hs) ?_
    rintro y z hy ⟨a, hz⟩
    exact h.mem_reachFrom_of_step hy hz
  · intro hx
    exact h.mem_reachFrom.mpr ⟨x, FinSet.mem_toList.mpr hx, 0, .nil x⟩

theorem order_ends (h : st.InStep) (seeds : List S) (k : Nat) :
    Search.order (seeds.length + st.transitions.size + k) st.next seeds =
      Search.order (seeds.length + st.transitions.size) st.next seeds := by
  apply Search.order_add (TransitionSystem.mem_ends_of_reachedIn h.mem_next)
  exact TransitionSystem.length_ends.le

end InStep

/-- The last step of a path to the state comes from a state that is reached as well. -/
theorem Consistent.exists_mem_pre (h : st.Consistent) (hx : x ∈ st.reach) (hinitial : x ∉ st.initial) :
    ∃ found, st.pre x = .ok found ∧ ∃ y, y ∈ found ∧ y ∈ st.reach := by
  obtain ⟨s, hs, n, hwalk⟩ := h.mem_reachFrom.mp hx
  cases hwalk with
  | nil => exact absurd (FinSet.mem_toList.mp hs) hinitial
  | @snoc y _ n hwalk hstep =>
    obtain ⟨a, ha⟩ := hstep
    have hpre := h.tellsTransitions.pre x
    obtain ⟨found, hfound⟩ := hpre.ok_iff.mpr (h.target _ ha)
    refine ⟨found, hfound, y, (hpre.right found hfound y).mpr ⟨a, ha⟩, ?_⟩
    exact h.mem_reachFrom.mpr ⟨s, hs, n, hwalk⟩

theorem ofChanges_findsReachable (cs : List (Change S A P)) : (ofChanges cs).FindsReachable where
  ends := (inStep_ofChanges cs).order_ends
  mem_iff _ _ := (inStep_ofChanges cs).mem_reachFrom_iff
  least := (inStep_ofChanges cs).reachFrom_isLeast
  mono _ _ hsub _ := (inStep_ofChanges cs).reachFrom_mono hsub
  union := (inStep_ofChanges cs).reachFrom_append
  again := (inStep_ofChanges cs).reachFrom_reachFrom
  predecessor _ := (consistent_ofChanges cs).exists_mem_pre

end OmegaCheck.TransitionStore
