import OmegaCheck.Proofs.Exploration
import Mathlib.Data.Set.Card

/-!
# Explorations with a limit

A limit makes every exploration end, also that of an infinite graph: it stops because of the limit
exactly when more states can be reached than the limit allows, and otherwise returns what an
exploration without a limit returns. The rounds of the loop are never used up.
-/

namespace OmegaCheck

theorem FinSet.encard_mem {α : Type} [Element α] (s : FinSet α) : {a | a ∈ s}.encard = s.size := by
  have hmembers : {a | a ∈ s} = (s.toList.toFinset : Set α) := by
    ext a
    simp
  rw [hmembers, Set.encard_coe_eq_coe_finsetCard, List.toFinset_card_of_nodup s.toList_nodup,
    length_toList]

namespace StateSpace

variable {S A ε : Type} [Element S] [Element A]
variable {moves : S → Except ε (List (A × S))} {initial : List S} {bounds : Bounds} {n : Nat}

theorem checkLimit_of_limit {states : FinSet S} (hlimit : bounds.limit = some n) :
    (checkLimit bounds states : Except (Halt ε) Unit) =
      if n < states.size then .error (.limit n) else .ok () := by
  rw [checkLimit, hlimit]

theorem expand_succ_of_eq_ok {rounds : Nat} {space : StateSpace S A} {s : S} {pending : List S}
    {steps : List (A × S)} (hs : moves s = .ok steps) :
    expand bounds moves (rounds + 1) space (s :: pending) =
      (do checkLimit bounds (space.grown s steps).states
          expand bounds moves rounds (space.grown s steps)
            (pending ++ (Search.meet space.states (steps.map Prod.snd)).2)) := by
  rw [expand, hs]
  rfl

/-- More rounds do not change the answer of a loop that did not use up its rounds. -/
theorem expand_add {rounds : Nat} {space : StateSpace S A} {pending : List S}
    (h : expand bounds moves rounds space pending ≠ .error .horizon) (more : Nat) :
    expand bounds moves (rounds + more) space pending =
      expand bounds moves rounds space pending := by
  induction rounds generalizing space pending with
  | zero =>
    cases pending with
    | nil => rw [expand, expand]
    | cons s pending => exact absurd rfl h
  | succ rounds ih =>
    cases pending with
    | nil => rw [expand, expand]
    | cons s pending =>
      rw [Nat.add_right_comm]
      cases hs : moves s with
      | error e =>
        rw [expand, expand, hs]
        rfl
      | ok steps =>
        rw [expand_succ_of_eq_ok hs] at h ⊢
        rw [expand_succ_of_eq_ok hs]
        cases hcheck : (checkLimit bounds (space.grown s steps).states : Except (Halt ε) Unit) with
        | error e => rfl
        | ok _ =>
          rw [hcheck] at h
          exact ih h

/-- All states that were met are reachable. -/
theorem Progress.lt_encard {space : StateSpace S A} {done pending : List S}
    (h : Progress moves initial space done pending) (hsize : n < space.states.size) :
    n < {x | Reached moves initial x}.encard := by
  have hmet : {x | x ∈ space.states} ⊆ {x | Reached moves initial x} :=
    fun x hx => h.reached x ((h.mem_states x).mp hx)
  calc (n : ℕ∞) < space.states.size := by exact_mod_cast hsize
    _ = {x | x ∈ space.states}.encard := space.states.encard_mem.symm
    _ ≤ {x | Reached moves initial x}.encard := Set.encard_le_encard hmet

/-- With a limit the loop ends by itself: each round completes a state, and there are never more
states than the limit when the next round begins. -/
theorem Progress.expand_limited (hlimit : bounds.limit = some n) {rounds : Nat}
    {space : StateSpace S A} {done pending : List S}
    (h : Progress moves initial space done pending)
    (hdefined : ∀ x, Reached moves initial x → ∃ steps, moves x = .ok steps)
    (hsize : space.states.size ≤ n) (hrounds : n ≤ done.length + rounds) :
    (∃ result, expand bounds moves rounds space pending = .ok result) ∨
      expand bounds moves rounds space pending = .error (.limit n) ∧
        n < {x | Reached moves initial x}.encard := by
  induction rounds generalizing space done pending with
  | zero =>
    have hall := h.size_states
    obtain rfl : pending = [] := List.length_eq_zero_iff.mp (by omega)
    exact .inl ⟨space, rfl⟩
  | succ rounds ih =>
    cases pending with
    | nil => exact .inl ⟨space, rfl⟩
    | cons s pending =>
      obtain ⟨steps, hs⟩ := hdefined s (h.reached s (by simp))
      rw [expand_succ_of_eq_ok hs, checkLimit_of_limit hlimit]
      split
      · next hlarge => exact .inr ⟨rfl, (h.step hs).lt_encard hlarge⟩
      · next hsmall =>
        refine ih (h.step hs) (Nat.not_lt.mp hsmall) ?_
        rw [List.length_append, List.length_singleton]
        omega

/-- The exploration with a number of rounds of its own. -/
def exploreFor (rounds : Nat) (bounds : Bounds) (initial : List S)
    (moves : S → Except ε (List (A × S))) : Except (Halt ε) (StateSpace S A) := do
  checkLimit bounds (Search.meet ∅ initial).1
  expand bounds moves rounds ⟨(Search.meet ∅ initial).1, (Search.meet ∅ initial).1, ∅⟩
    (Search.meet ∅ initial).2

theorem explore_eq_exploreFor :
    explore bounds initial moves = exploreFor bounds.expansions bounds initial moves := rfl

theorem exploreFor_limited (hlimit : bounds.limit = some n)
    (hdefined : ∀ x, Reached moves initial x → ∃ steps, moves x = .ok steps) {rounds : Nat}
    (hrounds : n ≤ rounds) :
    (∃ space, exploreFor rounds bounds initial moves = .ok space) ∨
      exploreFor rounds bounds initial moves = .error (.limit n) ∧
        n < {x | Reached moves initial x}.encard := by
  have hstart := Progress.start moves initial
  rw [exploreFor, checkLimit_of_limit hlimit]
  split
  · next hlarge => exact .inr ⟨rfl, hstart.lt_encard hlarge⟩
  · next hsmall =>
    exact hstart.expand_limited hlimit hdefined (Nat.not_lt.mp hsmall) (by simpa using hrounds)

theorem exploreFor_add {rounds : Nat}
    (h : exploreFor rounds bounds initial moves ≠ .error .horizon) (more : Nat) :
    exploreFor (rounds + more) bounds initial moves = exploreFor rounds bounds initial moves := by
  rw [exploreFor] at h
  rw [exploreFor, exploreFor]
  cases hcheck : (checkLimit bounds (Search.meet ∅ initial).1 : Except (Halt ε) Unit) with
  | error e => rfl
  | ok _ =>
    rw [hcheck] at h
    exact expand_add h more

theorem IsReachable.encard_reached {space : StateSpace S A} (h : IsReachable moves initial space) :
    {x | Reached moves initial x}.encard = space.states.size := by
  rw [← space.states.encard_mem]
  exact congrArg Set.encard (Set.ext fun x => (h.mem_states x).symm)

theorem not_lt_encard_of_explore {space : StateSpace S A} (hlimit : bounds.limit = some n)
    (h : explore bounds initial moves = .ok space) :
    ¬ n < {x | Reached moves initial x}.encard := by
  obtain ⟨hspace, hsize⟩ := explore_eq_ok_iff.mp h
  rw [Bounds.expansions, hlimit, Option.getD_some] at hsize
  rw [hspace.encard_reached, not_lt]
  exact_mod_cast hsize

/-- A result does not depend on the bounds, as long as these leave room for it. -/
theorem explore_eq_ok_of_le {bounds' : Bounds} {space : StateSpace S A}
    (h : explore bounds initial moves = .ok space) (hle : bounds.expansions ≤ bounds'.expansions) :
    explore bounds' initial moves = .ok space := by
  obtain ⟨hspace, hsize⟩ := explore_eq_ok_iff.mp h
  exact hspace.explore_eq (hsize.trans hle)

/-- What an exploration with a limit returns if no state fails to have its moves. -/
structure IsLimited (moves : S → Except ε (List (A × S))) (initial : List S) (n : Nat)
    (answer : Except (Halt ε) (StateSpace S A)) : Prop where
  /-- The loop ends after `n` rounds at most. -/
  ends : answer ≠ .error .horizon ∧
    ∀ rounds, n ≤ rounds → exploreFor rounds { limit := some n } initial moves = answer
  exceeded : answer = .error (.limit n) ↔ n < {x | Reached moves initial x}.encard
  complete : ¬ n < {x | Reached moves initial x}.encard → ∃ space, answer = .ok space ∧
    ∀ horizon, n ≤ horizon → explore { horizon := horizon } initial moves = .ok space
  mono : ∀ space, answer = .ok space → ∀ m, n ≤ m →
    explore { limit := some m } initial moves = .ok space

theorem explore_isLimited (n : Nat) (initial : List S) (moves : S → Except ε (List (A × S)))
    (hmoves : ∀ s, ∃ steps, moves s = .ok steps) :
    IsLimited moves initial n (explore { limit := some n } initial moves) := by
  have hanswer : (∃ space, exploreFor n { limit := some n } initial moves = .ok space) ∨
      exploreFor n { limit := some n } initial moves = .error (.limit n) ∧
        n < {x | Reached moves initial x}.encard :=
    exploreFor_limited rfl (fun x _ => hmoves x) le_rfl
  rw [explore_eq_exploreFor]
  constructor
  case ends =>
    have hends : exploreFor n { limit := some n } initial moves ≠ .error .horizon := by
      intro heq
      rw [heq] at hanswer
      obtain ⟨_, ⟨⟩⟩ | ⟨⟨⟩, _⟩ := hanswer
    refine ⟨hends, fun rounds hrounds => ?_⟩
    obtain ⟨more, rfl⟩ := Nat.exists_eq_add_of_le hrounds
    exact exploreFor_add hends more
  case exceeded =>
    constructor
    · intro heq
      obtain ⟨_, hok⟩ | ⟨_, hlarge⟩ := hanswer
      · cases heq.symm.trans hok
      · exact hlarge
    · intro hlarge
      obtain ⟨_, hok⟩ | ⟨heq, _⟩ := hanswer
      · exact absurd hlarge (not_lt_encard_of_explore rfl hok)
      · exact heq
  case complete =>
    intro hsmall
    obtain ⟨space, hok⟩ | ⟨_, hlarge⟩ := hanswer
    · exact ⟨space, hok, fun horizon hle => explore_eq_ok_of_le hok hle⟩
    · exact absurd hlarge hsmall
  case mono => exact fun space hok m hle => explore_eq_ok_of_le hok hle

/-- Counts on for ever, or starts again. -/
def counting (s : Nat) : Except String (List (Nat × Nat)) := .ok [(0, s + 1), (1, 0)]

/-- Goes round the states 0, 1 and 2. -/
def circling (s : Nat) : Except String (List (Nat × Nat)) := .ok [(0, (s + 1) % 3), (1, s)]

/-- A limit cuts off an infinite graph, and lets a graph pass that has as many states. -/
theorem explore_counting_circling_isLimited :
    explore { limit := some 3 } [1, 0] counting = .error (.limit 3) ∧
      3 < {x | Reached counting [1, 0] x}.encard ∧
    explore { limit := some 2 } [1, 0, 1] circling = .error (.limit 2) ∧
      2 < {x | Reached circling [1, 0, 1] x}.encard ∧
    ∃ space, explore { limit := some 3 } [1, 0, 1] circling = .ok space ∧
      space.states.toList = [0, 1, 2] ∧ explore {} [1, 0, 1] circling = .ok space := by
  have hcounting := explore_isLimited 3 [1, 0] counting fun s => ⟨_, rfl⟩
  have hlarge := explore_isLimited 2 [1, 0, 1] circling fun s => ⟨_, rfl⟩
  have hsmall := explore_isLimited 3 [1, 0, 1] circling fun s => ⟨_, rfl⟩
  refine ⟨rfl, hcounting.exceeded.mp rfl, rfl, hlarge.exceeded.mp rfl, ?_⟩
  have hok : ∃ space, explore { limit := some 3 } [1, 0, 1] circling = .ok space ∧
      space.states.toList = [0, 1, 2] := ⟨_, rfl, rfl⟩
  obtain ⟨space, hspace, hstates⟩ := hok
  obtain ⟨space', hspace', huncapped⟩ := hsmall.complete (not_lt_encard_of_explore rfl hspace)
  cases hspace.symm.trans hspace'
  exact ⟨space, hspace, hstates, huncapped _ (by decide)⟩

end StateSpace

end OmegaCheck
