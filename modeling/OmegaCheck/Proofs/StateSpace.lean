import OmegaCheck.StateSpace
import OmegaCheck.Proofs.Search

/-!
# Explorations are exact

An exploration that ends holds exactly the states that can be reached from the initial ones, and all
steps between them. It ends if the steps of every reachable state are defined and there are no more
reachable states than its bounds allow.
-/

namespace OmegaCheck

theorem FinSet.size_eq_length {α : Type} [Element α] {s : FinSet α} {l : List α} (hl : l.Nodup)
    (h : ∀ a, a ∈ s ↔ a ∈ l) : s.size = l.length := by
  have hperm : s.toList.Perm l := by
    rw [List.perm_ext_iff_of_nodup s.toList_nodup hl]
    exact fun a => mem_toList.trans (h a)
  rw [← length_toList, hperm.length_eq]

namespace StateSpace

variable {S A ε : Type} {moves : S → Except ε (List (A × S))} {initial : List S}

/-- Whether one of the moves of `s` goes to `t`. -/
def Leads (moves : S → Except ε (List (A × S))) (s t : S) : Prop :=
  ∃ steps a, moves s = .ok steps ∧ (a, t) ∈ steps

def Reached (moves : S → Except ε (List (A × S))) (initial : List S) (x : S) : Prop :=
  ∃ s ∈ initial, ∃ n, Walk (Leads moves) s n x

theorem Reached.step {x y : S} (h : Reached moves initial x) (hy : Leads moves x y) :
    Reached moves initial y := by
  obtain ⟨s, hs, n, hwalk⟩ := h
  exact ⟨s, hs, n + 1, hwalk.snoc hy⟩

theorem mem_stepsFrom {s : S} {steps : List (A × S)} {t : Transition S A} :
    t ∈ stepsFrom s steps ↔ t.source = s ∧ (t.action, t.target) ∈ steps := by
  obtain ⟨source, action, target⟩ := t
  simp only [stepsFrom, List.mem_map, Transition.mk.injEq, Prod.exists]
  constructor
  · rintro ⟨a, u, h, rfl, rfl, rfl⟩
    exact ⟨rfl, h⟩
  · rintro ⟨rfl, h⟩
    exact ⟨action, target, h, rfl, rfl, rfl⟩

variable [Element S] [Element A]

/-- Where an exploration stands: the states in `done` are expanded, those in `pending` are next. -/
structure Progress (moves : S → Except ε (List (A × S))) (initial : List S)
    (space : StateSpace S A) (done pending : List S) : Prop where
  mem_states : ∀ x, x ∈ space.states ↔ x ∈ done ++ pending
  nodup : (done ++ pending).Nodup
  reached : ∀ x ∈ done ++ pending, Reached moves initial x
  mem_initial : ∀ x, x ∈ space.initial ↔ x ∈ initial
  initial : ∀ x ∈ initial, x ∈ space.states
  closed : ∀ s ∈ done, ∃ steps, moves s = .ok steps ∧ ∀ m ∈ steps, m.2 ∈ space.states
  mem_transitions : ∀ t, t ∈ space.transitions ↔
    t.source ∈ done ∧ ∃ steps, moves t.source = .ok steps ∧ (t.action, t.target) ∈ steps

theorem Progress.start (moves : S → Except ε (List (A × S))) (initial : List S) :
    Progress moves initial ⟨(Search.meet ∅ initial).1, (Search.meet ∅ initial).1, ∅⟩ []
      (Search.meet ∅ initial).2 where
  mem_states x := by simp
  nodup := Search.nodup_meet_snd ∅ initial
  reached x hx := ⟨x, (Search.mem_meet_snd.mp hx).1, 0, .nil x⟩
  mem_initial x := by simp
  initial x hx := Search.mem_meet_fst.mpr (Or.inr hx)
  closed s hs := by cases hs
  mem_transitions t := by simp

/-- The space after the expansion of `s`. -/
def grown (space : StateSpace S A) (s : S) (steps : List (A × S)) : StateSpace S A :=
  { space with
    states := (Search.meet space.states (steps.map Prod.snd)).1
    transitions := space.transitions.insertAll (stepsFrom s steps) }

theorem Progress.step {space : StateSpace S A} {done pending : List S} {s : S}
    {steps : List (A × S)} (h : Progress moves initial space done (s :: pending))
    (hs : moves s = .ok steps) :
    Progress moves initial (space.grown s steps) (done ++ [s])
      (pending ++ (Search.meet space.states (steps.map Prod.snd)).2) := by
  have hlist : (done ++ [s]) ++ (pending ++ (Search.meet space.states (steps.map Prod.snd)).2) =
      (done ++ s :: pending) ++ (Search.meet space.states (steps.map Prod.snd)).2 := by simp
  have hold : ∀ x, x ∈ space.states → x ∈ (space.grown s steps).states :=
    fun x hx => Search.mem_meet_fst.mpr (Or.inl hx)
  constructor
  case mem_states =>
    intro x
    rw [hlist, List.mem_append, ← h.mem_states, Search.mem_meet_snd, grown, Search.mem_meet_fst]
    by_cases hx : x ∈ space.states <;> simp [hx]
  case nodup =>
    rw [hlist]
    refine h.nodup.append (Search.nodup_meet_snd _ _) fun x hx hx' => ?_
    exact (Search.mem_meet_snd.mp hx').2 ((h.mem_states x).mpr hx)
  case reached =>
    rw [hlist]
    intro x hx
    rcases List.mem_append.mp hx with hx | hx
    · exact h.reached x hx
    · obtain ⟨⟨a, y⟩, hy, rfl⟩ := List.mem_map.mp (Search.mem_meet_snd.mp hx).1
      exact (h.reached s (by simp)).step ⟨steps, a, hs, hy⟩
  case mem_initial => exact h.mem_initial
  case initial => exact fun x hx => hold x (h.initial x hx)
  case closed =>
    intro r hr
    rcases List.mem_append.mp hr with hr | hr
    · obtain ⟨steps', hr, hclosed⟩ := h.closed r hr
      exact ⟨steps', hr, fun m hm => hold _ (hclosed m hm)⟩
    · obtain rfl := List.mem_singleton.mp hr
      exact ⟨steps, hs, fun m hm => Search.mem_meet_fst.mpr (Or.inr (List.mem_map_of_mem hm))⟩
  case mem_transitions =>
    intro t
    have hgrown : t ∈ (space.grown s steps).transitions ↔
        t ∈ stepsFrom s steps ∨ t ∈ space.transitions := FinSet.mem_insertAll
    rw [hgrown, mem_stepsFrom, h.mem_transitions, List.mem_append, List.mem_singleton]
    constructor
    · rintro (⟨rfl, ht⟩ | ⟨ht, hsteps⟩)
      · exact ⟨Or.inr rfl, steps, hs, ht⟩
      · exact ⟨Or.inl ht, hsteps⟩
    · rintro ⟨ht | ht, steps', hsteps, hmem⟩
      · exact Or.inr ⟨ht, steps', hsteps, hmem⟩
      · rw [ht, hs] at hsteps
        cases hsteps
        exact Or.inl ⟨ht, hmem⟩

/-- The reachable part of a state graph, as an exploration is to return it. -/
structure IsReachable (moves : S → Except ε (List (A × S))) (initial : List S)
    (space : StateSpace S A) : Prop where
  mem_states : ∀ x, x ∈ space.states ↔ Reached moves initial x
  mem_initial : ∀ x, x ∈ space.initial ↔ x ∈ initial
  defined : ∀ x, x ∈ space.states → ∃ steps, moves x = .ok steps
  mem_transitions : ∀ t, t ∈ space.transitions ↔
    t.source ∈ space.states ∧ ∃ steps, moves t.source = .ok steps ∧ (t.action, t.target) ∈ steps

theorem Progress.isReachable {space : StateSpace S A} {done : List S}
    (h : Progress moves initial space done []) : IsReachable moves initial space := by
  have hdone : ∀ x, x ∈ space.states ↔ x ∈ done := by simpa using h.mem_states
  refine ⟨fun x => ⟨fun hx => ?_, ?_⟩, h.mem_initial, fun x hx => ?_, fun t => ?_⟩
  · exact h.reached x (by simpa using (hdone x).mp hx)
  · rintro ⟨s, hs, n, hwalk⟩
    refine hwalk.invariant (h.initial s hs) ?_
    rintro a b ha ⟨steps, c, hsteps, hb⟩
    obtain ⟨steps', hsteps', hclosed⟩ := h.closed a ((hdone a).mp ha)
    rw [hsteps] at hsteps'
    cases hsteps'
    exact hclosed _ hb
  · obtain ⟨steps, hsteps, _⟩ := h.closed x ((hdone x).mp hx)
    exact ⟨steps, hsteps⟩
  · rw [h.mem_transitions, hdone]

theorem isReachable_reachable {steps : S → List (A × S)} {bound : Nat} {U : List S}
    (hU : ∀ x, Reached (fun x => (.ok (steps x) : Except ε _)) initial x → x ∈ U)
    (hbound : U.length ≤ bound) :
    IsReachable (fun x => (.ok (steps x) : Except ε _)) initial
      (reachable bound initial steps) := by
  have hleads : ∀ x y, y ∈ (steps x).map Prod.snd ↔
      Leads (fun x => (.ok (steps x) : Except ε _)) x y := by
    intro x y
    rw [List.mem_map]
    constructor
    · rintro ⟨⟨a, _⟩, hmem, rfl⟩
      exact ⟨_, a, rfl, hmem⟩
    · rintro ⟨_, a, ⟨⟩, hmem⟩
      exact ⟨(a, y), hmem, rfl⟩
  have hreached : ∀ n x, Search.ReachedIn (fun s => (steps s).map Prod.snd) initial n x →
      Reached (fun x => (.ok (steps x) : Except ε _)) initial x := by
    rintro n x ⟨s, hs, hwalk⟩
    exact ⟨s, hs, n, hwalk.mono fun a b => (hleads a b).mp⟩
  have horder : ∀ x, x ∈ Search.order bound (fun s => (steps s).map Prod.snd) initial ↔
      Reached (fun x => (.ok (steps x) : Except ε _)) initial x := by
    intro x
    rw [Search.mem_order (fun n y hy => hU y (hreached n y hy)) hbound]
    constructor
    · rintro ⟨n, hx⟩
      exact hreached n x hx
    · rintro ⟨s, hs, n, hwalk⟩
      exact ⟨n, s, hs, hwalk.mono fun a b => (hleads a b).mpr⟩
  constructor
  case mem_states => exact fun x => FinSet.mem_ofList.trans (horder x)
  case mem_initial => exact fun x => FinSet.mem_ofList
  case defined => exact fun x _ => ⟨_, rfl⟩
  case mem_transitions =>
    intro t
    simp only [reachable, FinSet.mem_ofList, List.mem_flatMap, mem_stepsFrom]
    constructor
    · rintro ⟨s, hs, rfl, hmem⟩
      exact ⟨hs, _, rfl, hmem⟩
    · rintro ⟨hs, _, ⟨⟩, hmem⟩
      exact ⟨_, hs, rfl, hmem⟩

/-- One round of the loop: the steps of `s` are defined and the limit is kept. -/
theorem expand_succ_eq_ok_iff {bounds : Bounds} {n : Nat} {space result : StateSpace S A} {s : S}
    {pending : List S} :
    expand bounds moves (n + 1) space (s :: pending) = .ok result ↔
      ∃ steps, moves s = .ok steps ∧
        (checkLimit bounds (space.grown s steps).states : Except (Halt ε) Unit) = .ok () ∧
        expand bounds moves n (space.grown s steps)
          (pending ++ (Search.meet space.states (steps.map Prod.snd)).2) = .ok result := by
  rw [expand]
  cases hs : moves s with
  | error e =>
    constructor
    · intro h
      cases h
    · rintro ⟨steps, h, _⟩
      cases h
  | ok steps =>
    change (do
      (checkLimit bounds (space.grown s steps).states : Except (Halt ε) Unit)
      expand bounds moves n (space.grown s steps)
        (pending ++ (Search.meet space.states (steps.map Prod.snd)).2)) = .ok result ↔ _
    cases hlimit : (checkLimit bounds (space.grown s steps).states : Except (Halt ε) Unit) with
    | error e =>
      constructor
      · intro h
        cases h
      · rintro ⟨_, h, h', _⟩
        cases h
        rw [hlimit] at h'
        cases h'
    | ok _ =>
      constructor
      · exact fun h => ⟨steps, rfl, hlimit, h⟩
      · rintro ⟨_, h, _, h'⟩
        cases h
        exact h'

theorem Progress.isReachable_of_expand {bounds : Bounds} {n : Nat} {space result : StateSpace S A}
    {done pending : List S} (h : Progress moves initial space done pending)
    (he : expand bounds moves n space pending = .ok result) : IsReachable moves initial result := by
  induction n generalizing space done pending with
  | zero =>
    cases pending with
    | nil => cases he; exact h.isReachable
    | cons s pending => cases he
  | succ n ih =>
    cases pending with
    | nil => cases he; exact h.isReachable
    | cons s pending =>
      obtain ⟨steps, hs, _, he⟩ := expand_succ_eq_ok_iff.mp he
      exact ih (h.step hs) he

theorem isReachable_of_explore {bounds : Bounds} {space : StateSpace S A}
    (h : explore bounds initial moves = .ok space) : IsReachable moves initial space := by
  rw [explore] at h
  cases hlimit : (checkLimit bounds (Search.meet ∅ initial).1 : Except (Halt ε) Unit) with
  | error e =>
    simp only [hlimit] at h
    cases h
  | ok _ =>
    simp only [hlimit] at h
    exact (Progress.start moves initial).isReachable_of_expand h

/-- Distinct reachable states: there are no more of them than `U` has members. -/
theorem Progress.length_le {space : StateSpace S A} {done pending U : List S}
    (h : Progress moves initial space done pending)
    (hU : ∀ x, Reached moves initial x → x ∈ U) : done.length + pending.length ≤ U.length := by
  have hle := (h.nodup.subperm fun x hx => hU x (h.reached x hx)).length_le
  rwa [List.length_append] at hle

theorem Progress.size_states {space : StateSpace S A} {done pending : List S}
    (h : Progress moves initial space done pending) :
    space.states.size = done.length + pending.length := by
  rw [FinSet.size_eq_length h.nodup h.mem_states, List.length_append]

theorem checkLimit_eq_ok {bounds : Bounds} {states : FinSet S}
    (h : states.size ≤ bounds.expansions) : (checkLimit bounds states : Except (Halt ε) Unit) = .ok () := by
  rw [checkLimit]
  cases hlimit : bounds.limit with
  | none => rfl
  | some n =>
    rw [Bounds.expansions, hlimit, Option.getD_some] at h
    exact if_neg (Nat.not_lt.mpr h)

theorem Progress.exists_expand {bounds : Bounds} {n : Nat} {space : StateSpace S A}
    {done pending U : List S} (h : Progress moves initial space done pending)
    (hdefined : ∀ x, Reached moves initial x → ∃ steps, moves x = .ok steps)
    (hU : ∀ x, Reached moves initial x → x ∈ U) (hbounds : U.length ≤ bounds.expansions)
    (hn : U.length ≤ done.length + n) : ∃ result, expand bounds moves n space pending = .ok result := by
  induction n generalizing space done pending with
  | zero =>
    have hlen := h.length_le hU
    obtain rfl : pending = [] := List.length_eq_zero_iff.mp (by omega)
    exact ⟨space, rfl⟩
  | succ n ih =>
    cases pending with
    | nil => exact ⟨space, rfl⟩
    | cons s pending =>
      obtain ⟨steps, hs⟩ := hdefined s (h.reached s (by simp))
      have hn' : U.length ≤ (done ++ [s]).length + n := by
        rw [List.length_append, List.length_singleton]
        omega
      obtain ⟨result, hresult⟩ := ih (h.step hs) hn'
      refine ⟨result, expand_succ_eq_ok_iff.mpr ⟨steps, hs, checkLimit_eq_ok ?_, hresult⟩⟩
      rw [(h.step hs).size_states]
      exact ((h.step hs).length_le hU).trans hbounds

theorem exists_explore (bounds : Bounds) {U : List S}
    (hdefined : ∀ x, Reached moves initial x → ∃ steps, moves x = .ok steps)
    (hU : ∀ x, Reached moves initial x → x ∈ U) (hbounds : U.length ≤ bounds.expansions) :
    ∃ space, explore bounds initial moves = .ok space := by
  have hstart := Progress.start moves initial
  have hcheck : (checkLimit bounds (Search.meet ∅ initial).1 : Except (Halt ε) Unit) = .ok () := by
    refine checkLimit_eq_ok (le_trans ?_ hbounds)
    exact hstart.size_states.le.trans (hstart.length_le hU)
  obtain ⟨space, hspace⟩ := hstart.exists_expand hdefined hU hbounds (n := bounds.expansions)
    (by simpa using hbounds)
  refine ⟨space, ?_⟩
  rw [explore]
  simp only [hcheck]
  exact hspace

end StateSpace

end OmegaCheck
