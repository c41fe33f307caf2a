import OmegaCheck.Proofs.Search

/-!
# Shortest paths

A search for one target keeps the origins of states instead of trails. The way back from a state
through the origins is the trail that a complete search keeps to it: origins are never changed, and
each of them was met before. So the search for a target finds a path exactly if there is one, and it
finds a shortest one.
-/

namespace OmegaCheck

namespace Search

variable {S : Type} [Element S] {next : S → List S} {sources : List S} {origins : Origins S}
  {seen : FinSet S}

/-- The states have origins, each the one behind it in the list and the last one none. -/
def Leads (origins : Origins S) : List S → Prop
  | [] => True
  | s :: rest => origins.get? s = some rest.head? ∧ Leads origins rest

theorem Leads.isSome_get? {l : List S} {x : S} (h : Leads origins l) (hx : x ∈ l) :
    (origins.get? x).isSome = true := by
  induction l with
  | nil => cases hx
  | cons s l ih =>
    rcases List.mem_cons.mp hx with rfl | hx
    · rw [h.1]
      rfl
    · exact ih h.2 hx

/-- The way back is followed to its end if it may be as long as it is. -/
theorem Leads.wayBack_eq {s : S} {l : List S} (h : Leads origins (s :: l)) {length : Nat}
    (hlength : l.length < length) : wayBack origins s length = s :: l := by
  induction l generalizing s length with
  | nil =>
    obtain ⟨length, rfl⟩ := Nat.exists_eq_succ_of_ne_zero (Nat.ne_of_gt hlength)
    simp [wayBack, h.1]
  | cons origin l ih =>
    obtain ⟨length, rfl⟩ := Nat.exists_eq_succ_of_ne_zero (Nat.ne_zero_of_lt hlength)
    have hrest := ih h.2 (Nat.lt_of_succ_lt_succ hlength)
    simp [wayBack, h.1, hrest]

/-- States without repetition that have origins are no more than there are origins. -/
theorem Leads.length_le {l : List S} (h : Leads origins l) (hl : l.Nodup) :
    l.length ≤ origins.size := by
  have hsub : l ⊆ origins.keys := by
    intro x hx
    obtain ⟨origin, horigin⟩ := Option.isSome_iff_exists.mp (h.isSome_get? hx)
    exact List.mem_map.mpr ⟨(x, origin), FinMap.mem_toList.mpr horigin, rfl⟩
  rw [← FinMap.length_keys]
  exact (hl.subperm hsub).length_le

/-- Recording meets the same states as `meet`, gives the new ones their origin and keeps the others
as they are. -/
structure Recorded (origin : Option S) (origins : Origins S) (seen : FinSet S) (l : List S) :
    Prop where
  new_eq : (record origin origins l).2 = (meet seen l).2
  isSome_iff : ∀ x, ((record origin origins l).1.get? x).isSome = true ↔ x ∈ (meet seen l).1
  get?_new : ∀ x ∈ (meet seen l).2, (record origin origins l).1.get? x = some origin
  get?_old : ∀ x ∈ seen, (record origin origins l).1.get? x = origins.get? x

theorem isSome_get?_insert (h : ∀ x, (origins.get? x).isSome = true ↔ x ∈ seen) (s : S)
    (origin : Option S) (x : S) :
    ((origins.insert s origin).get? x).isSome = true ↔ x ∈ seen.insert s := by
  rw [FinMap.get?_insert, FinSet.mem_insert]
  by_cases hx : x = s <;> simp [hx, h]

theorem recorded (origin : Option S) (h : ∀ x, (origins.get? x).isSome = true ↔ x ∈ seen)
    (l : List S) : Recorded origin origins seen l := by
  induction l generalizing origins seen with
  | nil => exact ⟨rfl, h, by simp [meet], fun _ _ => rfl⟩
  | cons s l ih =>
    by_cases hs : s ∈ seen
    · have hrecord : record origin origins (s :: l) = record origin origins l :=
        if_pos ((h s).mpr hs)
      have hmeet : meet seen (s :: l) = meet seen l := if_pos hs
      have hl := ih h
      constructor
      case new_eq => rw [hrecord, hmeet, hl.new_eq]
      case isSome_iff => rw [hrecord, hmeet]; exact hl.isSome_iff
      case get?_new => rw [hrecord, hmeet]; exact hl.get?_new
      case get?_old => rw [hrecord]; exact hl.get?_old
    · have hrecord : record origin origins (s :: l) =
          ((record origin (origins.insert s origin) l).1,
            s :: (record origin (origins.insert s origin) l).2) :=
        if_neg fun hsome => hs ((h s).mp hsome)
      have hmeet : meet seen (s :: l) =
          ((meet (seen.insert s) l).1, s :: (meet (seen.insert s) l).2) := if_neg hs
      have hl := ih (isSome_get?_insert h s origin)
      have hmem : s ∈ seen.insert s := FinSet.mem_insert.mpr (Or.inl rfl)
      constructor
      case new_eq => rw [hrecord, hmeet, hl.new_eq]
      case isSome_iff => rw [hrecord, hmeet]; exact hl.isSome_iff
      case get?_new =>
        rw [hrecord, hmeet]
        refine List.forall_mem_cons.mpr ⟨?_, hl.get?_new⟩
        rw [hl.get?_old s hmem, FinMap.get?_insert_self]
      case get?_old =>
        rw [hrecord]
        intro x hx
        have hne : x ≠ s := fun he => hs (he ▸ hx)
        rw [hl.get?_old x (FinSet.mem_insert.mpr (Or.inr hx)), FinMap.get?_insert, if_neg hne]

/-- Origins that tell the trails in a queue. -/
structure Tells (origins : Origins S) (seen : FinSet S) (queue : List (Trail S)) : Prop where
  isSome_iff : ∀ x, (origins.get? x).isSome = true ↔ x ∈ seen
  leads : ∀ t ∈ queue, Leads origins (t.last :: t.earlier)
  nodup : ∀ t ∈ queue, (t.last :: t.earlier).Nodup

/-- The way back from the end of a trail is the trail. -/
theorem Tells.wayBack_eq {queue : List (Trail S)} {t : Trail S} (h : Tells origins seen queue)
    (ht : t ∈ queue) : (wayBack origins t.last origins.size).reverse = t.path := by
  have hlength := (h.leads t ht).length_le (h.nodup t ht)
  rw [(h.leads t ht).wayBack_eq hlength, Trail.path]

/-- Origins that are kept lead the same way. -/
theorem Leads.mono {origins' : Origins S} {l : List S} (h : Leads origins l)
    (hkept : ∀ x, (origins.get? x).isSome = true → origins'.get? x = origins.get? x) :
    Leads origins' l := by
  induction l with
  | nil => trivial
  | cons s l ih => exact ⟨(hkept s (by rw [h.1]; rfl)).trans h.1, ih h.2⟩

theorem Tells.start (sources : List S) :
    Tells (record none ∅ sources).1 (meet ∅ sources).1 ((meet ∅ sources).2.map Trail.start) := by
  have hrecorded : Recorded none ∅ ∅ sources := recorded none (by simp) sources
  refine ⟨hrecorded.isSome_iff, ?_, ?_⟩
  · intro t ht
    obtain ⟨s, hs, rfl⟩ := List.mem_map.mp ht
    exact ⟨hrecorded.get?_new s hs, trivial⟩
  · intro t ht
    obtain ⟨s, _, rfl⟩ := List.mem_map.mp ht
    exact List.nodup_singleton s

/-- One round of the loop. -/
theorem Tells.step {queue : List (Trail S)} {t : Trail S} (h : Tells origins seen (t :: queue))
    (l : List S) :
    Tells (record (some t.last) origins l).1 (meet seen l).1
      (queue ++ (meet seen l).2.map t.extend) := by
  have hrecorded := recorded (some t.last) h.isSome_iff l
  have hkept : ∀ x, (origins.get? x).isSome = true →
      (record (some t.last) origins l).1.get? x = origins.get? x :=
    fun x hx => hrecorded.get?_old x ((h.isSome_iff x).mp hx)
  have ht := h.leads t List.mem_cons_self
  refine ⟨hrecorded.isSome_iff, fun u hu => ?_, fun u hu => ?_⟩
  · rcases List.mem_append.mp hu with hu | hu
    · exact (h.leads u (List.mem_cons_of_mem t hu)).mono hkept
    · obtain ⟨y, hy, rfl⟩ := List.mem_map.mp hu
      exact ⟨hrecorded.get?_new y hy, ht.mono hkept⟩
  · rcases List.mem_append.mp hu with hu | hu
    · exact h.nodup u (List.mem_cons_of_mem t hu)
    · obtain ⟨y, hy, rfl⟩ := List.mem_map.mp hu
      -- The states of a trail were met, and a state is added when it was not met before.
      refine List.nodup_cons.mpr ⟨fun hmem => ?_, h.nodup t List.mem_cons_self⟩
      exact (mem_meet_snd.mp hy).2 ((h.isSome_iff y).mp (ht.isSome_get? hmem))

theorem Tells.seek_eq {queue : List (Trail S)} (h : Tells origins seen queue) (bound : Nat)
    (target : S) : seek next target bound origins (queue.map Trail.last) =
      ((expand next bound seen queue).find? fun t => t.last = target).map Trail.path := by
  induction bound generalizing origins seen queue with
  | zero => rfl
  | succ bound ih =>
    cases queue with
    | nil => rfl
    | cons t queue =>
      rw [List.map_cons, seek, expand]
      by_cases ht : t.last = target
      · rw [if_pos ht, h.wayBack_eq List.mem_cons_self, List.find?_cons_of_pos (by simpa using ht)]
        rfl
      · have hnew := (recorded (some t.last) h.isSome_iff (next t.last)).new_eq
        have hqueue : queue.map Trail.last ++ (meet seen (next t.last)).2 =
            (queue ++ (meet seen (next t.last)).2.map t.extend).map Trail.last := by
          have hlast : (Trail.last ∘ t.extend : S → S) = id := rfl
          rw [List.map_append, List.map_map, hlast, List.map_id]
        rw [if_neg ht, List.find?_cons_of_neg (by simpa using ht)]
        simp only [hnew, hqueue]
        exact ih (h.step (next t.last))

/-- The search for a target finds the first trail that a complete search lists to it. -/
theorem shortestPath?_eq (bound : Nat) (next : S → List S) (sources : List S) (target : S) :
    shortestPath? bound next sources target =
      ((trails bound next sources).find? fun t => t.last = target).map Trail.path := by
  have hrecorded : Recorded none ∅ ∅ sources := recorded none (by simp) sources
  have hlast : (Trail.last ∘ Trail.start : S → S) = id := rfl
  have hqueue : (meet ∅ sources).2 = ((meet ∅ sources).2.map Trail.start).map Trail.last := by
    rw [List.map_map, hlast, List.map_id]
  rw [shortestPath?, trails, ← (Tells.start sources).seek_eq, ← hqueue]
  simp only [hrecorded.new_eq]

/-- A shortest path is the path of a trail, and no walk to its end is shorter. -/
theorem shortestPath?_eq_some {bound : Nat} {U : List S} {target : S} {path : List S}
    (hU : ∀ n x, ReachedIn next sources n x → x ∈ U) (hbound : U.length ≤ bound)
    (h : shortestPath? bound next sources target = some path) :
    ∃ t : Trail S, t.Follows next sources ∧ t.last = target ∧ t.path = path ∧ target ∉ t.earlier ∧
      ∀ n, ReachedIn next sources n target → t.steps ≤ n := by
  rw [shortestPath?_eq] at h
  obtain ⟨t, hfind, rfl⟩ := Option.map_eq_some_iff.mp h
  have hbf := trails_isBreadthFirst hU hbound
  have hmem := List.mem_of_find?_eq_some hfind
  obtain rfl : t.last = target := by simpa using List.find?_some hfind
  exact ⟨t, hbf.follows t hmem, rfl, rfl, hbf.last_not_mem_earlier hmem,
    fun n => hbf.steps_le hmem⟩

theorem shortestPath?_isSome {bound n : Nat} {U : List S} {target : S}
    (hU : ∀ n x, ReachedIn next sources n x → x ∈ U) (hbound : U.length ≤ bound)
    (h : ReachedIn next sources n target) :
    ∃ path, shortestPath? bound next sources target = some path := by
  obtain ⟨t, ht, hlast, _⟩ := (trails_isBreadthFirst hU hbound).complete n target h
  have hfind : ((trails bound next sources).find? fun t => t.last = target).isSome := by
    rw [List.find?_isSome]
    exact ⟨t, ht, by simpa using hlast⟩
  obtain ⟨u, hu⟩ := Option.isSome_iff_exists.mp hfind
  exact ⟨u.path, by rw [shortestPath?_eq, hu, Option.map_some]⟩

theorem shortestPath?_add {bound : Nat} {U : List S} {target : S}
    (hU : ∀ n x, ReachedIn next sources n x → x ∈ U) (hbound : U.length ≤ bound) (k : Nat) :
    shortestPath? (bound + k) next sources target = shortestPath? bound next sources target := by
  rw [shortestPath?_eq, shortestPath?_eq, trails_add hU hbound k]

end Search

section Distances

variable {S : Type} {next : S → List S} {sources : List S}

/-- No shortest trail passes a state twice: the trail up to a state is a shortest one as well. -/
theorem Trail.Follows.nodup {t : Trail S} (h : t.Follows next sources)
    (hleast : ∀ n, Search.ReachedIn next sources n t.last → t.steps ≤ n) :
    (t.last :: t.earlier).Nodup := by
  induction h with
  | @start s hs => exact List.nodup_singleton s
  | @extend t s h hs ih =>
    refine List.nodup_cons.mpr ⟨fun hmem => ?_, ih fun n hn => ?_⟩
    · obtain ⟨n, hn, hreach⟩ := (h.extend hs).reachedIn_of_mem_earlier hmem
      exact absurd (hleast n hreach) (Nat.not_le.mpr hn)
    · exact Nat.le_of_succ_le_succ (hleast (n + 1) (hn.step hs))

theorem Walk.of_isChain {R : S → S → Prop} {x y : S} {xs : List S} (h : (x :: xs).IsChain R)
    (hlast : (x :: xs).getLast? = some y) : Walk R x xs.length y := by
  induction xs generalizing x with
  | nil =>
    obtain rfl : x = y := by simpa using hlast
    exact .nil x
  | cons z xs ih =>
    obtain ⟨hxz, hxs⟩ := List.isChain_cons_cons.mp h
    exact (ih hxs (by rwa [List.getLast?_cons_cons] at hlast)).cons hxz

end Distances

namespace Search

variable {S : Type} {next : S → List S} {sources : List S}

/-- The fewest steps in which a state is reached from the sources. -/
def IsDistance (next : S → List S) (sources : List S) (x : S) (n : Nat) : Prop :=
  IsLeast {n | ReachedIn next sources n x} n

/-- A path along successors, from one of the sources to the target. -/
structure IsPath (next : S → List S) (sources : List S) (target : S) (path : List S) : Prop where
  head : ∃ s ∈ sources, path.head? = some s
  last : path.getLast? = some target
  chain : path.IsChain fun a b => b ∈ next a

theorem IsPath.reachedIn {target : S} {path : List S} (h : IsPath next sources target path) :
    ReachedIn next sources (path.length - 1) target := by
  obtain ⟨s, hs, hhead⟩ := h.head
  obtain ⟨rest, rfl⟩ := List.head?_eq_some_iff.mp hhead
  exact ⟨s, hs, .of_isChain h.chain h.last⟩

theorem IsPath.length_pos {target : S} {path : List S} (h : IsPath next sources target path) :
    0 < path.length := by
  obtain ⟨_, _, hhead⟩ := h.head
  obtain ⟨rest, rfl⟩ := List.head?_eq_some_iff.mp hhead
  exact Nat.succ_pos _

theorem isPath_of_follows {t : Trail S} (h : t.Follows next sources) :
    IsPath next sources t.last t.path where
  head := h.exists_head
  last := by simp [Trail.path_eq]
  chain := h.isChain

theorem IsBreadthFirst.isDistance {l : List (Trail S)} {t : Trail S}
    (h : IsBreadthFirst next sources l) (ht : t ∈ l) : IsDistance next sources t.last t.steps :=
  ⟨(h.follows t ht).reachedIn, fun _ hn => h.steps_le ht hn⟩

/-- The search lists the reachable states, each once and the nearest first, and finds a shortest
path to each of them. Further rounds of its loops change nothing. -/
structure FindsNearest [Element S] (bound : Nat) (next : S → List S) (sources : List S) : Prop where
  mem_order_iff : ∀ x, x ∈ order bound next sources ↔ ∃ n, ReachedIn next sources n x
  order_nodup : (order bound next sources).Nodup
  order_sorted : (order bound next sources).Pairwise fun x y =>
    ∀ m n, IsDistance next sources x m → IsDistance next sources y n → m ≤ n
  exists_path_iff : ∀ target, (∃ path, shortestPath? bound next sources target = some path) ↔
    ∃ n, ReachedIn next sources n target
  path_shortest : ∀ target path, shortestPath? bound next sources target = some path →
    IsPath next sources target path ∧ path.Nodup ∧
      ∀ other, IsPath next sources target other → path.length ≤ other.length
  order_ends : ∀ k, order (bound + k) next sources = order bound next sources
  path_ends : ∀ target k, shortestPath? (bound + k) next sources target =
    shortestPath? bound next sources target

theorem findsNearest_of_closed [Element S] {bound : Nat} {U : FinSet S}
    (hsources : ∀ s ∈ sources, s ∈ U) (hnext : ∀ x ∈ U, ∀ y ∈ next x, y ∈ U)
    (hbound : U.size ≤ bound) : FindsNearest bound next sources := by
  have hU : ∀ n x, ReachedIn next sources n x → x ∈ U.toList := by
    rintro n x ⟨s, hs, hwalk⟩
    exact FinSet.mem_toList.mpr (hwalk.invariant (hsources s hs) fun a b ha hb => hnext a ha b hb)
  have hlength : U.toList.length ≤ bound := by rwa [FinSet.length_toList]
  have hbf := trails_isBreadthFirst hU hlength
  constructor
  case mem_order_iff => exact fun x => mem_order hU hlength
  case order_nodup => exact hbf.nodup
  case order_sorted =>
    refine List.pairwise_map.mpr (hbf.sorted.imp_of_mem fun {t u} ht hu hle m n hm hn => ?_)
    rwa [hm.unique (hbf.isDistance ht), hn.unique (hbf.isDistance hu)]
  case exists_path_iff =>
    intro target
    constructor
    · rintro ⟨path, hpath⟩
      obtain ⟨t, hfollows, rfl, _⟩ := shortestPath?_eq_some hU hlength hpath
      exact ⟨t.steps, hfollows.reachedIn⟩
    · rintro ⟨n, hreach⟩
      exact shortestPath?_isSome hU hlength hreach
  case path_shortest =>
    intro target path hpath
    obtain ⟨t, hfollows, rfl, rfl, _, hleast⟩ := shortestPath?_eq_some hU hlength hpath
    refine ⟨isPath_of_follows hfollows, List.nodup_reverse.mpr (hfollows.nodup hleast), ?_⟩
    intro other hother
    have hle := hleast _ hother.reachedIn
    have hpos := hother.length_pos
    rw [t.length_path]
    omega
  case order_ends => exact order_add hU hlength
  case path_ends => exact fun target k => shortestPath?_add hU hlength k

/-- Two ways of different length to one state, which has a loop and leads back. -/
def detour : Nat → List Nat
  | 0 => [1, 2]
  | 1 => [2]
  | 2 => [2, 3, 0]
  | _ => []

theorem findsNearest_detour :
    (∀ s ∈ [0, 1, 0], s ∈ FinSet.ofList [0, 1, 2, 3]) ∧
      (∀ x ∈ FinSet.ofList [0, 1, 2, 3], ∀ y ∈ detour x, y ∈ FinSet.ofList [0, 1, 2, 3]) ∧
      (FinSet.ofList [0, 1, 2, 3]).size ≤ 4 ∧ FindsNearest 4 detour [0, 1, 0] := by
  have hsources : ∀ s ∈ [0, 1, 0], s ∈ FinSet.ofList [0, 1, 2, 3] := by decide
  have hnext : ∀ x ∈ FinSet.ofList [0, 1, 2, 3], ∀ y ∈ detour x,
      y ∈ FinSet.ofList [0, 1, 2, 3] := by
    intro x hx
    rw [FinSet.mem_ofList] at hx
    revert x
    decide
  have hsize : (FinSet.ofList [0, 1, 2, 3]).size ≤ 4 := by decide
  exact ⟨hsources, hnext, hsize, findsNearest_of_closed hsources hnext hsize⟩

end Search

end OmegaCheck
