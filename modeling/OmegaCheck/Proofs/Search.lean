import OmegaCheck.Search
import OmegaCheck.Proofs.Walk
import Mathlib.Data.List.Perm.Subperm

/-!
# Breadth-first search is exact

With a bound that the reachable states do not exceed, the search lists one trail to each reachable
state, nearest first, and no walk from the sources to that state is shorter than its trail. All of
it follows from one invariant of the search loop, `Progress`.
-/

namespace OmegaCheck

namespace Search

variable {S : Type} {next : S → List S} {sources : List S}

/-- Whether a state can be reached from the sources in exactly `n` steps. -/
def ReachedIn (next : S → List S) (sources : List S) (n : Nat) (x : S) : Prop :=
  ∃ s ∈ sources, Walk (fun a b => b ∈ next a) s n x

theorem ReachedIn.source {x : S} (h : x ∈ sources) : ReachedIn next sources 0 x := ⟨x, h, .nil x⟩

theorem ReachedIn.step {n : Nat} {x y : S} (h : ReachedIn next sources n x) (hy : y ∈ next x) :
    ReachedIn next sources (n + 1) y := by
  obtain ⟨s, hs, hwalk⟩ := h
  exact ⟨s, hs, hwalk.snoc hy⟩

end Search

namespace Trail

variable {S : Type} {next : S → List S} {sources : List S}

/-- The number of steps. -/
def steps (t : Trail S) : Nat := t.earlier.length

@[simp] theorem steps_start (s : S) : (start s).steps = 0 := rfl

@[simp] theorem steps_extend (t : Trail S) (s : S) : (t.extend s).steps = t.steps + 1 := rfl

@[simp] theorem last_start (s : S) : (start s).last = s := rfl

@[simp] theorem last_extend (t : Trail S) (s : S) : (t.extend s).last = s := rfl

theorem path_eq (t : Trail S) : t.path = t.earlier.reverse ++ [t.last] := by
  simp [path]

theorem path_extend (t : Trail S) (s : S) : (t.extend s).path = t.path ++ [s] := by
  simp [path, extend]

theorem length_path (t : Trail S) : t.path.length = t.steps + 1 := by
  simp [path, steps]

/-- A trail that starts in a source and follows successors. -/
inductive Follows (next : S → List S) (sources : List S) : Trail S → Prop where
  | start {s : S} (h : s ∈ sources) : Follows next sources (Trail.start s)
  | extend {t : Trail S} {s : S} (h : Follows next sources t) (hs : s ∈ next t.last) :
      Follows next sources (t.extend s)

namespace Follows

variable {t : Trail S}

theorem isChain (h : t.Follows next sources) : t.path.IsChain fun a b => b ∈ next a := by
  induction h with
  | start => exact List.isChain_singleton _
  | @extend t s _ hs ih =>
    rw [path_extend]
    refine ih.append (List.isChain_singleton s) fun x hx y hy => ?_
    rw [path_eq, List.getLast?_append] at hx
    simp only [List.getLast?_singleton, Option.some_or, Option.mem_def, Option.some.injEq] at hx
    simp only [List.head?_cons, Option.mem_def, Option.some.injEq] at hy
    rwa [← hx, ← hy]

theorem exists_head (h : t.Follows next sources) : ∃ s ∈ sources, t.path.head? = some s := by
  induction h with
  | @start s hs => exact ⟨s, hs, rfl⟩
  | @extend t s _ _ ih =>
    obtain ⟨s, hs, hhead⟩ := ih
    refine ⟨s, hs, ?_⟩
    rw [path_extend, List.head?_append, hhead, Option.some_or]

theorem reachedIn (h : t.Follows next sources) : Search.ReachedIn next sources t.steps t.last := by
  induction h with
  | start hs => exact .source hs
  | extend _ hs ih => exact ih.step hs

/-- The states before the last one are reached in fewer steps. -/
theorem reachedIn_of_mem_earlier {x : S} (h : t.Follows next sources) (hx : x ∈ t.earlier) :
    ∃ n < t.steps, Search.ReachedIn next sources n x := by
  induction h with
  | start => cases hx
  | @extend t s h _ ih =>
    rcases List.mem_cons.mp hx with rfl | hx
    · exact ⟨t.steps, Nat.lt_succ_self _, h.reachedIn⟩
    · obtain ⟨n, hn, hreach⟩ := ih hx
      exact ⟨n, Nat.lt_succ_of_lt hn, hreach⟩

end Follows

end Trail

namespace Search

variable {S : Type} {next : S → List S} {sources : List S}

/-- What a complete search lists. -/
structure IsBreadthFirst (next : S → List S) (sources : List S) (l : List (Trail S)) : Prop where
  follows : ∀ t ∈ l, t.Follows next sources
  nodup : (l.map Trail.last).Nodup
  sorted : l.Pairwise fun t u => t.steps ≤ u.steps
  complete : ∀ n x, ReachedIn next sources n x → ∃ t ∈ l, t.last = x ∧ t.steps ≤ n

namespace IsBreadthFirst

variable {l : List (Trail S)} {t : Trail S} {n : Nat} {x : S}

theorem eq_of_last_eq {u : Trail S} (h : IsBreadthFirst next sources l) (ht : t ∈ l) (hu : u ∈ l)
    (he : t.last = u.last) : t = u :=
  List.inj_on_of_nodup_map h.nodup ht hu he

theorem steps_le (h : IsBreadthFirst next sources l) (ht : t ∈ l)
    (hreach : ReachedIn next sources n t.last) : t.steps ≤ n := by
  obtain ⟨u, hu, hlast, hsteps⟩ := h.complete n _ hreach
  rwa [h.eq_of_last_eq ht hu hlast.symm]

/-- No shortest trail passes its end earlier. -/
theorem last_not_mem_earlier (h : IsBreadthFirst next sources l) (ht : t ∈ l) :
    t.last ∉ t.earlier := by
  intro hmem
  obtain ⟨n, hn, hreach⟩ := (h.follows t ht).reachedIn_of_mem_earlier hmem
  exact absurd (h.steps_le ht hreach) (Nat.not_le.mpr hn)

end IsBreadthFirst

variable [Element S]

@[simp] theorem mem_meet_fst {seen : FinSet S} {l : List S} {x : S} :
    x ∈ (meet seen l).1 ↔ x ∈ seen ∨ x ∈ l := by
  induction l generalizing seen with
  | nil => simp [meet]
  | cons s l ih =>
    rw [meet]
    split
    · rename_i hs
      rw [ih, List.mem_cons]
      constructor
      · exact fun h => h.imp_right Or.inr
      · rintro (h | rfl | h)
        · exact Or.inl h
        · exact Or.inl hs
        · exact Or.inr h
    · rw [ih, FinSet.mem_insert, List.mem_cons, or_assoc, or_left_comm]

@[simp] theorem mem_meet_snd {seen : FinSet S} {l : List S} {x : S} :
    x ∈ (meet seen l).2 ↔ x ∈ l ∧ x ∉ seen := by
  induction l generalizing seen with
  | nil => simp [meet]
  | cons s l ih =>
    rw [meet]
    split
    · rename_i hs
      rw [ih, List.mem_cons]
      constructor
      · exact fun h => ⟨Or.inr h.1, h.2⟩
      · rintro ⟨rfl | h, hx⟩
        · exact absurd hs hx
        · exact ⟨h, hx⟩
    · rename_i hs
      rw [List.mem_cons, ih, FinSet.mem_insert, List.mem_cons]
      constructor
      · rintro (rfl | ⟨h, hx⟩)
        · exact ⟨Or.inl rfl, hs⟩
        · exact ⟨Or.inr h, fun h => hx (Or.inr h)⟩
      · rintro ⟨rfl | h, hx⟩
        · exact Or.inl rfl
        · by_cases he : x = s
          · exact Or.inl he
          · exact Or.inr ⟨h, fun h => h.elim he hx⟩

theorem nodup_meet_snd (seen : FinSet S) (l : List S) : (meet seen l).2.Nodup := by
  induction l generalizing seen with
  | nil => exact List.nodup_nil
  | cons s l ih =>
    rw [meet]
    split
    · exact ih seen
    · refine List.nodup_cons.mpr ⟨fun h => ?_, ih _⟩
      exact (mem_meet_snd.mp h).2 (FinSet.mem_insert.mpr (Or.inl rfl))

/-- Where the search stands: the trails in `done` are listed and expanded, those in `queue` are
next. Their ends are the states seen so far, each of them once. -/
structure Progress (next : S → List S) (sources : List S) (seen : FinSet S)
    (done queue : List (Trail S)) : Prop where
  mem_seen : ∀ x, x ∈ seen ↔ ∃ t ∈ done ++ queue, t.last = x
  nodup : ((done ++ queue).map Trail.last).Nodup
  follows : ∀ t ∈ done ++ queue, t.Follows next sources
  sorted : (done ++ queue).Pairwise fun t u => t.steps ≤ u.steps
  /-- The queue spans at most two distances. -/
  near : ∀ t ∈ queue.head?, ∀ u ∈ done ++ queue, u.steps ≤ t.steps + 1
  sources : ∀ s ∈ sources, ∃ t ∈ done ++ queue, t.last = s ∧ t.steps = 0
  closed : ∀ t ∈ done, ∀ y ∈ next t.last, ∃ u ∈ done ++ queue, u.last = y ∧ u.steps ≤ t.steps + 1

theorem Progress.start (next : S → List S) (sources : List S) :
    Progress next sources (meet ∅ sources).1 [] ((meet ∅ sources).2.map Trail.start) where
  mem_seen x := by simp
  nodup := by
    have hlast : (Trail.last ∘ Trail.start : S → S) = id := rfl
    simpa [hlast] using nodup_meet_snd ∅ sources
  follows := by
    intro t ht
    obtain ⟨s, hs, rfl⟩ := List.mem_map.mp ht
    exact .start (mem_meet_snd.mp hs).1
  sorted := by
    refine List.pairwise_of_forall_mem_list fun t ht u _ => ?_
    obtain ⟨s, _, rfl⟩ := List.mem_map.mp ht
    exact Nat.zero_le _
  near := by
    intro t _ u hu
    obtain ⟨s, _, rfl⟩ := List.mem_map.mp hu
    exact Nat.zero_le _
  sources := by
    intro s hs
    exact ⟨.start s, List.mem_map.mpr ⟨s, by simpa using hs, rfl⟩, rfl, rfl⟩
  closed := by
    intro t ht
    cases ht

/-- One round of the loop. -/
theorem Progress.step {seen : FinSet S} {done queue : List (Trail S)} {t : Trail S}
    (h : Progress next sources seen done (t :: queue)) :
    Progress next sources (meet seen (next t.last)).1 (done ++ [t])
      (queue ++ (meet seen (next t.last)).2.map t.extend) := by
  have hlist : (done ++ [t]) ++ (queue ++ (meet seen (next t.last)).2.map t.extend) =
      (done ++ t :: queue) ++ (meet seen (next t.last)).2.map t.extend := by simp
  have ht : t ∈ done ++ t :: queue := by simp
  have hnew : ∀ u ∈ (meet seen (next t.last)).2.map t.extend,
      ∃ y ∈ next t.last, y ∉ seen ∧ u = t.extend y := by
    intro u hu
    obtain ⟨y, hy, rfl⟩ := List.mem_map.mp hu
    exact ⟨y, (mem_meet_snd.mp hy).1, (mem_meet_snd.mp hy).2, rfl⟩
  have hnear : ∀ u ∈ done ++ t :: queue, u.steps ≤ t.steps + 1 := h.near t rfl
  constructor
  case mem_seen =>
    intro x
    rw [hlist, mem_meet_fst, h.mem_seen]
    constructor
    · rintro (⟨u, hu, rfl⟩ | hx)
      · exact ⟨u, List.mem_append_left _ hu, rfl⟩
      · by_cases hs : x ∈ seen
        · obtain ⟨u, hu, rfl⟩ := (h.mem_seen x).mp hs
          exact ⟨u, List.mem_append_left _ hu, rfl⟩
        · refine ⟨t.extend x, List.mem_append_right _ ?_, rfl⟩
          exact List.mem_map.mpr ⟨x, mem_meet_snd.mpr ⟨hx, hs⟩, rfl⟩
    · rintro ⟨u, hu, rfl⟩
      rcases List.mem_append.mp hu with hu | hu
      · exact Or.inl ⟨u, hu, rfl⟩
      · obtain ⟨y, hy, _, rfl⟩ := hnew u hu
        exact Or.inr hy
  case nodup =>
    rw [hlist, List.map_append, List.map_map]
    have hlast : (Trail.last ∘ t.extend : S → S) = id := rfl
    rw [hlast, List.map_id]
    refine h.nodup.append (nodup_meet_snd _ _) fun x hx hx' => ?_
    obtain ⟨u, hu, rfl⟩ := List.mem_map.mp hx
    exact (mem_meet_snd.mp hx').2 ((h.mem_seen _).mpr ⟨u, hu, rfl⟩)
  case follows =>
    rw [hlist]
    intro u hu
    rcases List.mem_append.mp hu with hu | hu
    · exact h.follows u hu
    · obtain ⟨y, hy, _, rfl⟩ := hnew u hu
      exact (h.follows t ht).extend hy
  case sorted =>
    rw [hlist]
    refine List.pairwise_append.mpr ⟨h.sorted, ?_, ?_⟩
    · refine List.pairwise_of_forall_mem_list fun u hu v hv => ?_
      obtain ⟨_, _, _, rfl⟩ := hnew u hu
      obtain ⟨_, _, _, rfl⟩ := hnew v hv
      exact Nat.le_refl _
    · intro u hu v hv
      obtain ⟨_, _, _, rfl⟩ := hnew v hv
      exact hnear u hu
  case near =>
    rw [hlist]
    intro v hv u hu
    have hvt : t.steps ≤ v.steps := by
      rcases List.mem_append.mp (List.mem_of_mem_head? hv) with hv | hv
      · exact List.rel_of_pairwise_cons (List.pairwise_append.mp h.sorted).2.1 hv
      · obtain ⟨_, _, _, rfl⟩ := hnew v hv
        exact Nat.le_succ _
    rcases List.mem_append.mp hu with hu | hu
    · exact (hnear u hu).trans (Nat.succ_le_succ hvt)
    · obtain ⟨_, _, _, rfl⟩ := hnew u hu
      exact Nat.succ_le_succ hvt
  case sources =>
    rw [hlist]
    intro s hs
    obtain ⟨u, hu, hus⟩ := h.sources s hs
    exact ⟨u, List.mem_append_left _ hu, hus⟩
  case closed =>
    rw [hlist]
    intro u hu y hy
    rcases List.mem_append.mp hu with hu | hu
    · obtain ⟨v, hv, hvy⟩ := h.closed u hu y hy
      exact ⟨v, List.mem_append_left _ hv, hvy⟩
    · obtain rfl := List.mem_singleton.mp hu
      -- A successor that was seen before is at most one step farther than `u`: the queue is near.
      by_cases hs : y ∈ seen
      · obtain ⟨v, hv, rfl⟩ := (h.mem_seen y).mp hs
        exact ⟨v, List.mem_append_left _ hv, rfl, hnear v hv⟩
      · refine ⟨u.extend y, List.mem_append_right _ ?_, rfl, Nat.le_refl _⟩
        exact List.mem_map.mpr ⟨y, mem_meet_snd.mpr ⟨hy, hs⟩, rfl⟩

/-- The ends of the trails are distinct reachable states, so there are no more of them than `U`
has members. -/
theorem Progress.length_le {seen : FinSet S} {done queue : List (Trail S)} {U : List S}
    (h : Progress next sources seen done queue)
    (hU : ∀ n x, ReachedIn next sources n x → x ∈ U) : done.length + queue.length ≤ U.length := by
  have hsub : (done ++ queue).map Trail.last ⊆ U := by
    intro x hx
    obtain ⟨t, ht, rfl⟩ := List.mem_map.mp hx
    exact hU _ _ (h.follows t ht).reachedIn
  have hle := (h.nodup.subperm hsub).length_le
  rwa [List.length_map, List.length_append] at hle

theorem Progress.expand {bound : Nat} {seen : FinSet S} {done queue : List (Trail S)} {U : List S}
    (h : Progress next sources seen done queue)
    (hU : ∀ n x, ReachedIn next sources n x → x ∈ U) (hbound : U.length ≤ done.length + bound) :
    ∃ seen', Progress next sources seen' (done ++ expand next bound seen queue) [] := by
  induction bound generalizing seen done queue with
  | zero =>
    have hlen := h.length_le hU
    obtain rfl : queue = [] := List.length_eq_zero_iff.mp (by omega)
    exact ⟨seen, by simpa [Search.expand] using h⟩
  | succ bound ih =>
    cases queue with
    | nil => exact ⟨seen, by simpa [Search.expand] using h⟩
    | cons t queue =>
      have hbound' : U.length ≤ (done ++ [t]).length + bound := by
        rw [List.length_append, List.length_singleton]
        omega
      obtain ⟨seen', h'⟩ := ih h.step hbound'
      exact ⟨seen', by simpa [Search.expand] using h'⟩

/-- The queue is empty by then, so that further rounds list nothing more. -/
theorem Progress.expand_add {bound : Nat} {seen : FinSet S} {done queue : List (Trail S)}
    {U : List S} (h : Progress next sources seen done queue)
    (hU : ∀ n x, ReachedIn next sources n x → x ∈ U) (hbound : U.length ≤ done.length + bound)
    (k : Nat) :
    Search.expand next (bound + k) seen queue = Search.expand next bound seen queue := by
  induction bound generalizing seen done queue with
  | zero =>
    have hlen := h.length_le hU
    obtain rfl : queue = [] := List.length_eq_zero_iff.mp (by omega)
    cases k <;> simp [Search.expand]
  | succ bound ih =>
    rw [Nat.succ_add]
    cases queue with
    | nil => simp [Search.expand]
    | cons t queue =>
      have hbound' : U.length ≤ (done ++ [t]).length + bound := by
        rw [List.length_append, List.length_singleton]
        omega
      simp only [Search.expand, ih h.step hbound']

theorem Progress.isBreadthFirst {seen : FinSet S} {l : List (Trail S)}
    (h : Progress next sources seen l []) : IsBreadthFirst next sources l := by
  obtain ⟨_, nodup, follows, sorted, _, sources, closed⟩ := h
  rw [List.append_nil] at nodup follows sorted sources closed
  refine ⟨follows, nodup, sorted, ?_⟩
  rintro n x ⟨s, hs, hwalk⟩
  induction hwalk with
  | nil =>
    obtain ⟨t, ht, hlast, hsteps⟩ := sources s hs
    exact ⟨t, ht, hlast, hsteps.le⟩
  | snoc _ hz ih =>
    obtain ⟨t, ht, rfl, hsteps⟩ := ih
    obtain ⟨u, hu, hlast, husteps⟩ := closed t ht _ hz
    exact ⟨u, hu, hlast, husteps.trans (Nat.succ_le_succ hsteps)⟩

theorem trails_isBreadthFirst {bound : Nat} {U : List S}
    (hU : ∀ n x, ReachedIn next sources n x → x ∈ U) (hbound : U.length ≤ bound) :
    IsBreadthFirst next sources (trails bound next sources) := by
  obtain ⟨_, h⟩ := (Progress.start next sources).expand hU (by simpa using hbound)
  exact h.isBreadthFirst

theorem trails_add {bound : Nat} {U : List S}
    (hU : ∀ n x, ReachedIn next sources n x → x ∈ U) (hbound : U.length ≤ bound) (k : Nat) :
    trails (bound + k) next sources = trails bound next sources := by
  rw [trails, trails]
  simp only [(Progress.start next sources).expand_add hU (by simpa using hbound) k]

theorem order_add {bound : Nat} {U : List S}
    (hU : ∀ n x, ReachedIn next sources n x → x ∈ U) (hbound : U.length ≤ bound) (k : Nat) :
    order (bound + k) next sources = order bound next sources := by
  rw [order, order, trails_add hU hbound k]

theorem mem_order {bound : Nat} {U : List S} {x : S}
    (hU : ∀ n x, ReachedIn next sources n x → x ∈ U) (hbound : U.length ≤ bound) :
    x ∈ order bound next sources ↔ ∃ n, ReachedIn next sources n x := by
  have hbf := trails_isBreadthFirst hU hbound
  rw [order, List.mem_map]
  constructor
  · rintro ⟨t, ht, rfl⟩
    exact ⟨t.steps, (hbf.follows t ht).reachedIn⟩
  · rintro ⟨n, hx⟩
    obtain ⟨t, ht, hlast, _⟩ := hbf.complete n x hx
    exact ⟨t, ht, hlast⟩

end Search

end OmegaCheck
