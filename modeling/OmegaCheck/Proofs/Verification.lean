import OmegaCheck.Proofs.Product
import OmegaCheck.Proofs.ShortestPath
import Mathlib.Data.List.Rotate

/-!
# Verdicts

A property is violated exactly if the automaton accepts an infinite run of the system. The lasso
that is then returned is a run of the system that the automaton accepts; its stem leads to a nearest
accepting product state on a cycle, and its cycle is a shortest one through that state. All of this
holds in whatever order the product states and their successors are listed.
-/

namespace OmegaCheck

section Cycles

variable {S : Type} [Element S] {next : S → List S} {bound : Nat} {U : List S} {x : S} {c : List S}

/-- The cycle that is found starts in `x`, closes, and is a shortest one. -/
theorem cycleThrough?_eq_some (hU : ∀ n y, Search.ReachedIn next (next x) n y → y ∈ U)
    (hbound : U.length ≤ bound) (h : cycleThrough? bound next x = some c) :
    (∃ rest, c = x :: rest) ∧ (c ++ [x]).IsChain (fun a b => b ∈ next a) ∧
      IsLeast {n | 0 < n ∧ Walk (fun a b => b ∈ next a) x n x} c.length := by
  obtain ⟨back, hback, rfl⟩ := Option.map_eq_some_iff.mp h
  obtain ⟨t, hfollows, hlast, rfl, hfirst, hleast⟩ := Search.shortestPath?_eq_some hU hbound hback
  -- The way back meets `x` at its end only, where it is cut off.
  have hcut : t.path.takeWhile (· ≠ x) = t.earlier.reverse := by
    rw [t.path_eq, List.takeWhile_append_of_pos, hlast]
    · simp
    · intro y hy
      have hne : y ≠ x := fun e => hfirst (e ▸ List.mem_reverse.mp hy)
      simpa using hne
  have hclosed : x :: t.path.takeWhile (· ≠ x) ++ [x] = x :: t.path := by
    rw [hcut, t.path_eq, hlast, List.cons_append]
  refine ⟨⟨_, rfl⟩, ?_, ⟨Nat.succ_pos _, ?_⟩, ?_⟩
  · obtain ⟨s, hs, hhead⟩ := hfollows.exists_head
    rw [hclosed, List.isChain_cons]
    refine ⟨fun y hy => ?_, hfollows.isChain⟩
    rw [hhead] at hy
    cases hy
    exact hs
  · obtain ⟨s, hs, hwalk⟩ := hfollows.reachedIn
    rw [hlast] at hwalk
    rw [hcut, List.length_cons, List.length_reverse]
    exact hwalk.cons hs
  · rintro n ⟨hn, hwalk⟩
    obtain ⟨k, rfl⟩ := Nat.exists_eq_succ_of_ne_zero hn.ne'
    obtain ⟨y, hy, hwalk⟩ := hwalk.cases_head
    rw [hcut, List.length_cons, List.length_reverse]
    exact Nat.succ_le_succ (hleast k ⟨y, hy, hwalk⟩)

theorem exists_cycleThrough? (hU : ∀ n y, Search.ReachedIn next (next x) n y → y ∈ U)
    (hbound : U.length ≤ bound) (h : OnCycle (fun a b => b ∈ next a) x) :
    ∃ c, cycleThrough? bound next x = some c := by
  obtain ⟨n, hwalk⟩ := h
  obtain ⟨y, hy, hwalk⟩ := hwalk.cases_head
  obtain ⟨back, hback⟩ := Search.shortestPath?_isSome hU hbound ⟨y, hy, hwalk⟩
  exact ⟨_, by rw [cycleThrough?, hback, Option.map_some]⟩

end Cycles

variable {S A P Q : Type} [Element S] [Element A] [Element P] [Element Q]

/-- Both hold, or both are violated by lassos whose stems have the same length. -/
inductive Verdict.Agrees : Verdict S → Verdict S → Prop
  | holds : Agrees .holds .holds
  | violated {w w' : Lasso S} (h : w.stem.length = w'.stem.length) :
      Agrees (.violated w) (.violated w')

namespace TransitionSystem

/-- The initial states, and the successors of each state, in any order and as often as one likes. -/
structure Lists (ts : TransitionSystem S A P) (next : S → List S) (sources : List S) : Prop where
  mem_next : ∀ s t, t ∈ next s ↔ ts.Joined s t
  mem_sources : ∀ s, s ∈ sources ↔ s ∈ ts.initial

theorem Lists.walk_iff {ts : TransitionSystem S A P} {next : S → List S} {sources : List S}
    (h : ts.Lists next sources) {s t : S} {n : Nat} :
    Walk (fun a b => b ∈ next a) s n t ↔ Walk ts.Joined s n t :=
  ⟨fun hwalk => hwalk.mono fun a b => (h.mem_next a b).mp,
    fun hwalk => hwalk.mono fun a b => (h.mem_next a b).mpr⟩

/-- The successors of a state, each as often as there are actions that lead to it. -/
def successors (ts : TransitionSystem S A P) (s : S) : List S :=
  (ts.successorTable.values s).map Prod.snd

theorem lists_successors (ts : TransitionSystem S A P) :
    ts.Lists ts.successors ts.initial.toList where
  mem_next s t := by
    simp only [successors, List.mem_map, Prod.exists, exists_eq_right, mem_successorTable, Joined]
  mem_sources _ := FinSet.mem_toList

namespace IsProduct

variable {ts : TransitionSystem S A P} {aut : BuchiAutomaton Q P}
variable {prod : TransitionSystem (S × Q) A Q} {x y : S × Q} {n : Nat}
variable {next : S × Q → List (S × Q)} {sources : List (S × Q)} {w : Lasso S}

theorem initial_mem_states (h : ts.IsProduct aut prod) (hx : x ∈ prod.initial) : x ∈ prod.states :=
  (h.mem_states x).mpr ⟨x, 0, (h.mem_initial x).mp hx, .nil x⟩

theorem target_mem_states (h : ts.IsProduct aut prod) (hxy : prod.Joined x y) : y ∈ prod.states := by
  obtain ⟨a, ha⟩ := hxy
  obtain ⟨hx, hstep⟩ := (h.mem_transitions x a y).mp ha
  obtain ⟨x₀, n, hx₀, hwalk⟩ := (h.mem_states x).mp hx
  exact (h.mem_states y).mpr ⟨x₀, n + 1, hx₀, hwalk.snoc ⟨a, hstep⟩⟩

theorem joint_of_joined (h : ts.IsProduct aut prod) (hxy : prod.Joined x y) : ts.Joint aut x y := by
  obtain ⟨a, ha⟩ := hxy
  exact ⟨a, ((h.mem_transitions x a y).mp ha).2⟩

theorem joined_of_joint (h : ts.IsProduct aut prod) (hx : x ∈ prod.states)
    (hxy : ts.Joint aut x y) : prod.Joined x y := by
  obtain ⟨a, ha⟩ := hxy
  exact ⟨a, (h.mem_transitions x a y).mpr ⟨hx, ha⟩⟩

theorem walk_mem_states (h : ts.IsProduct aut prod) (hx : x ∈ prod.states)
    (hwalk : Walk prod.Joined x n y) : y ∈ prod.states := by
  cases hwalk with
  | nil => exact hx
  | snoc _ hz => exact h.target_mem_states hz

/-- Joint walks that start in the product stay there. -/
theorem walk_joined (h : ts.IsProduct aut prod) (hx : x ∈ prod.states)
    (hwalk : Walk (ts.Joint aut) x n y) : Walk prod.Joined x n y := by
  induction hwalk with
  | nil => exact .nil x
  | snoc _ hz ih => exact ih.snoc (h.joined_of_joint (h.walk_mem_states hx ih) hz)

theorem reachedIn_mem_states (h : ts.IsProduct aut prod) (hlists : prod.Lists next sources)
    {seeds : List (S × Q)} (hseeds : ∀ s ∈ seeds, s ∈ prod.states)
    (hreach : Search.ReachedIn next seeds n x) : x ∈ prod.states.toList := by
  obtain ⟨s, hs, hwalk⟩ := hreach
  exact FinSet.mem_toList.mpr (h.walk_mem_states (hseeds s hs) (hlists.walk_iff.mp hwalk))

theorem reachedIn_next_mem (h : ts.IsProduct aut prod) (hlists : prod.Lists next sources)
    (hreach : Search.ReachedIn next (next x) n y) : y ∈ prod.states.toList :=
  h.reachedIn_mem_states hlists (fun _ hs => h.target_mem_states ((hlists.mem_next x _).mp hs))
    hreach

theorem reachedIn_sources_mem (h : ts.IsProduct aut prod) (hlists : prod.Lists next sources)
    (hreach : Search.ReachedIn next sources n y) : y ∈ prod.states.toList :=
  h.reachedIn_mem_states hlists (fun _ hs => h.initial_mem_states ((hlists.mem_sources _).mp hs))
    hreach

/-- Whether a lasso is found at the end of a trail. -/
theorem exists_lassoAt?_iff (h : ts.IsProduct aut prod) (hlists : prod.Lists next sources)
    {t : Trail (S × Q)} :
    (∃ w, lassoAt? aut prod.states.size next t = some w) ↔
      t.last.2 ∈ aut.accepting ∧ OnCycle prod.Joined t.last := by
  have hU : ∀ n y, Search.ReachedIn next (next t.last) n y → y ∈ prod.states.toList :=
    fun n y => h.reachedIn_next_mem hlists
  have hbound : prod.states.toList.length ≤ prod.states.size := (FinSet.length_toList _).le
  rw [lassoAt?]
  constructor
  · rintro ⟨w, hw⟩
    split at hw
    · rename_i hacc
      obtain ⟨c, hc, _⟩ := Option.map_eq_some_iff.mp hw
      obtain ⟨⟨rest, rfl⟩, _, ⟨_, hwalk⟩, _⟩ := cycleThrough?_eq_some hU hbound hc
      exact ⟨hacc, rest.length, hlists.walk_iff.mp hwalk⟩
    · cases hw
  · rintro ⟨hacc, n, hcycle⟩
    obtain ⟨c, hc⟩ := exists_cycleThrough? hU hbound ⟨n, hlists.walk_iff.mpr hcycle⟩
    exact ⟨_, by rw [if_pos hacc, hc, Option.map_some]⟩

/-- The trails among which a lasso is looked for. -/
theorem isBreadthFirst (h : ts.IsProduct aut prod) (hlists : prod.Lists next sources) :
    Search.IsBreadthFirst next sources (Search.trails prod.states.size next sources) :=
  Search.trails_isBreadthFirst (fun _ _ => h.reachedIn_sources_mem hlists)
    (FinSet.length_toList _).le

theorem exists_violated_iff (h : ts.IsProduct aut prod) (hlists : prod.Lists next sources) :
    (∃ w, Verdict.search aut prod.states.size next sources = .violated w) ↔
      ∃ x, x ∈ prod.states ∧ x.2 ∈ aut.accepting ∧ OnCycle prod.Joined x := by
  rw [Verdict.search]
  constructor
  · rintro ⟨w, hw⟩
    split at hw
    · rename_i w' hfind
      obtain ⟨t, ht, hlasso⟩ := List.exists_of_findSome?_eq_some hfind
      obtain ⟨hacc, hcycle⟩ := (h.exists_lassoAt?_iff hlists).mp ⟨w', hlasso⟩
      have hreach := ((h.isBreadthFirst hlists).follows t ht).reachedIn
      exact ⟨t.last, FinSet.mem_toList.mp (h.reachedIn_sources_mem hlists hreach), hacc, hcycle⟩
    · cases hw
  · rintro ⟨x, hx, hacc, hcycle⟩
    obtain ⟨x₀, n, hx₀, hwalk⟩ := (h.mem_states x).mp hx
    have hinit : x₀ ∈ prod.initial := (h.mem_initial x₀).mpr hx₀
    have hwalk := hlists.walk_iff.mpr (h.walk_joined (h.initial_mem_states hinit) hwalk)
    obtain ⟨t, ht, rfl, _⟩ :=
      (h.isBreadthFirst hlists).complete n x ⟨x₀, (hlists.mem_sources x₀).mpr hinit, hwalk⟩
    obtain ⟨w, hw⟩ := (h.exists_lassoAt?_iff hlists).mpr ⟨hacc, hcycle⟩
    split
    · rename_i w' _
      exact ⟨w', rfl⟩
    · rename_i hnone
      rw [List.findSome?_eq_none_iff] at hnone
      rw [hnone t ht] at hw
      cases hw

/-- The trail and the cycle of product states behind a lasso, and that neither can be shorter. -/
theorem exists_of_violated (h : ts.IsProduct aut prod) (hlists : prod.Lists next sources)
    (hw : Verdict.search aut prod.states.size next sources = .violated w) :
    ∃ (t : Trail (S × Q)) (rest : List (S × Q)),
      w = ⟨t.path.map Prod.fst, (t.last :: rest).map Prod.fst⟩ ∧
      t.Follows next sources ∧ t.last.2 ∈ aut.accepting ∧
      (t.last :: rest ++ [t.last]).IsChain prod.Joined ∧
      IsLeast {n | 0 < n ∧ Walk prod.Joined t.last n t.last} (t.last :: rest).length ∧
      IsLeast {n | ∃ x₀ y, x₀ ∈ prod.initial ∧ y.2 ∈ aut.accepting ∧ OnCycle prod.Joined y ∧
        Walk prod.Joined x₀ n y} t.steps := by
  rw [Verdict.search] at hw
  split at hw
  · rename_i w' hfind
    cases hw
    obtain ⟨l₁, t, l₂, hl, hlasso, hnone⟩ := List.findSome?_eq_some_iff.mp hfind
    have hbf := h.isBreadthFirst hlists
    have ht : t ∈ Search.trails prod.states.size next sources := by
      rw [hl]
      simp
    obtain ⟨hacc, hcycle⟩ := (h.exists_lassoAt?_iff hlists).mp ⟨w, hlasso⟩
    rw [lassoAt?, if_pos hacc] at hlasso
    obtain ⟨c, hc, rfl⟩ := Option.map_eq_some_iff.mp hlasso
    obtain ⟨⟨rest, rfl⟩, hchain, hleast⟩ := cycleThrough?_eq_some
      (fun _ _ => h.reachedIn_next_mem hlists) (FinSet.length_toList _).le hc
    simp only [hlists.walk_iff] at hleast
    refine ⟨t, rest, rfl, hbf.follows t ht, hacc, ?_, hleast, ?_, ?_⟩
    · exact hchain.imp fun a b => (hlists.mem_next a b).mp
    · obtain ⟨x₀, hx₀, hwalk⟩ := (hbf.follows t ht).reachedIn
      exact ⟨x₀, t.last, (hlists.mem_sources x₀).mp hx₀, hacc, hcycle, hlists.walk_iff.mp hwalk⟩
    · rintro n ⟨x₀, y, hx₀, hyacc, hycycle, hwalk⟩
      obtain ⟨u, hu, rfl, hsteps⟩ :=
        hbf.complete n y ⟨x₀, (hlists.mem_sources x₀).mpr hx₀, hlists.walk_iff.mpr hwalk⟩
      refine le_trans ?_ hsteps
      -- A trail in front of `t` ends in no such state, and no trail behind it is shorter.
      have hsorted := hbf.sorted
      rw [hl] at hu hsorted
      rcases List.mem_append.mp hu with hu | hu
      · obtain ⟨w, hw⟩ := (h.exists_lassoAt?_iff hlists).mpr ⟨hyacc, hycycle⟩
        rw [hnone u hu] at hw
        cases hw
      · rcases List.mem_cons.mp hu with rfl | hu
        · exact le_rfl
        · exact List.rel_of_pairwise_cons (List.pairwise_append.mp hsorted).2.1 hu
  · cases hw

end IsProduct

/-- The order in which states are listed decides neither between the verdicts nor on the length of
the stem, which is a least one. -/
theorem IsProduct.search_agrees {ts : TransitionSystem S A P} {aut : BuchiAutomaton Q P}
    {prod : TransitionSystem (S × Q) A Q} (h : ts.IsProduct aut prod)
    {next next' : S × Q → List (S × Q)} {sources sources' : List (S × Q)}
    (hlists : prod.Lists next sources) (hlists' : prod.Lists next' sources') :
    (Verdict.search aut prod.states.size next sources).Agrees
      (Verdict.search aut prod.states.size next' sources') := by
  have hiff := (h.exists_violated_iff hlists).trans (h.exists_violated_iff hlists').symm
  cases hv : Verdict.search aut prod.states.size next sources with
  | holds =>
    cases hv' : Verdict.search aut prod.states.size next' sources' with
    | holds => exact .holds
    | violated w' => simp [hv, hv'] at hiff
  | violated w =>
    cases hv' : Verdict.search aut prod.states.size next' sources' with
    | holds => simp [hv, hv'] at hiff
    | violated w' =>
      obtain ⟨t, _, rfl, _, _, _, _, hleast⟩ := h.exists_of_violated hlists hv
      obtain ⟨t', _, rfl, _, _, _, _, hleast'⟩ := h.exists_of_violated hlists' hv'
      refine .violated ?_
      rw [List.length_map, List.length_map, t.length_path, t'.length_path, hleast.unique hleast']

/-- What `verify` does with the product. -/
theorem verify_eq {ts : TransitionSystem S A P} {aut : BuchiAutomaton Q P}
    {prod : TransitionSystem (S × Q) A Q} (h : ts.product aut = .ok prod) :
    ts.verify aut = .ok (.search aut prod.states.size prod.successors prod.initial.toList) := by
  rw [verify, h]
  rfl

variable {ts : TransitionSystem S A P} {aut : BuchiAutomaton Q P}
variable {prod : TransitionSystem (S × Q) A Q} {w : Lasso S}

/-- An infinite run of the system that the automaton accepts. -/
structure IsAcceptedRun (ts : TransitionSystem S A P) (aut : BuchiAutomaton Q P) (s : Nat → S)
    (q : Nat → Q) : Prop where
  initial : s 0 ∈ ts.initial
  joined : ∀ i, ts.Joined (s i) (s (i + 1))
  start : ∃ q₀, q₀ ∈ aut.initial ∧ q 0 ∈ aut.next q₀ (ts.labelOf (s 0))
  reads : ∀ i, q (i + 1) ∈ aut.next (q i) (ts.labelOf (s (i + 1)))
  accepting : ∀ n, ∃ i, n ≤ i ∧ q i ∈ aut.accepting

def HasAcceptedRun (ts : TransitionSystem S A P) (aut : BuchiAutomaton Q P) : Prop :=
  ∃ s q, ts.IsAcceptedRun aut s q

theorem IsProduct.hasAcceptedRun_iff (h : ts.IsProduct aut prod) :
    ts.HasAcceptedRun aut ↔
      ∃ x, x ∈ prod.states ∧ x.2 ∈ aut.accepting ∧ OnCycle prod.Joined x := by
  constructor
  · rintro ⟨s, q, hrun⟩
    let f : Nat → S × Q := fun i => (s i, q i)
    have hf : ∀ i, ts.Joint aut (f i) (f (i + 1)) := by
      intro i
      obtain ⟨a, ha⟩ := hrun.joined i
      exact ⟨a, ha, hrun.reads i⟩
    have hmem : ∀ i, f i ∈ prod.states := by
      intro i
      have hwalk := Walk.of_sequence f hf 0 i
      rw [Nat.zero_add] at hwalk
      exact (h.mem_states (f i)).mpr ⟨f 0, i, ⟨hrun.initial, hrun.start⟩, hwalk⟩
    obtain ⟨i, hacc, n, hcycle⟩ := Walk.exists_onCycle_of_sequence f hf
      (List.finite_toSet prod.states.toList) (fun i => FinSet.mem_toList.mpr (hmem i))
      (p := fun x => x.2 ∈ aut.accepting) hrun.accepting
    exact ⟨f i, hmem i, hacc, n, h.walk_joined (hmem i) hcycle⟩
  · rintro ⟨x, hx, hacc, n, hcycle⟩
    obtain ⟨x₀, m, hx₀, hwalk⟩ := (h.mem_states x).mp hx
    have hcycle : OnCycle (ts.Joint aut) x := ⟨n, hcycle.mono fun _ _ => h.joint_of_joined⟩
    obtain ⟨f, hf0, hf, hrecurs⟩ := hwalk.exists_recurrent hcycle
    refine ⟨fun i => (f i).1, fun i => (f i).2, ?_, fun i => ?_, ?_, fun i => ?_, fun k => ?_⟩
    · rw [hf0]
      exact hx₀.1
    · obtain ⟨a, ha, _⟩ := hf i
      exact ⟨a, ha⟩
    · rw [hf0]
      exact hx₀.2
    · obtain ⟨_, _, hr⟩ := hf i
      exact hr
    · obtain ⟨i, hi, hfi⟩ := hrecurs k
      exact ⟨i, hi, hfi ▸ hacc⟩

theorem verify_violated_iff_hasAcceptedRun (hts : ts.Built) (haut : aut.Built) :
    ∃ v, ts.verify aut = .ok v ∧ ((∃ w, v = .violated w) ↔ ts.HasAcceptedRun aut) ∧
      (v = .holds ↔ ¬ ts.HasAcceptedRun aut) := by
  obtain ⟨prod, hprod, hp⟩ := exists_isProduct hts.wellFormed haut.wellFormed
  have hiff := (hp.exists_violated_iff prod.lists_successors).trans hp.hasAcceptedRun_iff.symm
  refine ⟨_, verify_eq hprod, hiff, ?_⟩
  rw [← hiff]
  cases Verdict.search aut prod.states.size prod.successors prod.initial.toList with
  | holds => simp
  | violated w => simp

/-- A system that moves from state 0, where nothing holds, to state 1, where proposition 0 holds for
ever after. -/
def latch : TransitionSystem Nat Nat Nat :=
  ofChanges [.addStates [0, 1], .addAction 0, .addProposition 0, .addInitial 0,
    .addTransition ⟨0, 0, 1⟩, .addTransition ⟨1, 0, 1⟩, .addLabel 1 0]

/-- Accepts the words in which proposition 0 holds from some point on. -/
def finallyHolds : BuchiAutomaton Nat Nat :=
  .ofChanges [.setInitial 0, .setAccepting 1, .addTransition 0 ∅ 0,
    .addTransition 0 (FinSet.ofList [0]) 1, .addTransition 1 (FinSet.ofList [0]) 1]

theorem verify_latch_hasAcceptedRun :
    latch.verify finallyHolds = .ok (.violated ⟨[0, 1], [1]⟩) ∧ latch.HasAcceptedRun finallyHolds := by
  have hv : latch.verify finallyHolds = .ok (.violated ⟨[0, 1], [1]⟩) := rfl
  have hts : latch.Built := ⟨_, rfl⟩
  have haut : finallyHolds.Built := ⟨_, rfl⟩
  obtain ⟨v, hverify, hiff, _⟩ := verify_violated_iff_hasAcceptedRun hts haut
  rw [hv] at hverify
  cases hverify
  exact ⟨hv, hiff.mp ⟨_, rfl⟩⟩

end TransitionSystem

/-- Whether the automaton, from state `q`, can read the labels one after the other and be in the
states `rs` after each of them. -/
def Semiautomaton.IsRun (aut : Semiautomaton Q P) : Q → List (FinSet P) → List Q → Prop
  | _, [], [] => True
  | q, label :: labels, r :: rs => r ∈ aut.next q label ∧ aut.IsRun r labels rs
  | _, _, _ => False

namespace Lasso

/-- Whether the stem and the cycle of a lasso follow the transitions of a system. -/
structure IsRunOf (w : Lasso S) (ts : TransitionSystem S A P) : Prop where
  stem_ne_nil : w.stem ≠ []
  cycle_ne_nil : w.cycle ≠ []
  initial : ∀ s ∈ w.stem.head?, s ∈ ts.initial
  stem_joined : w.stem.IsChain ts.Joined
  cycle_joined : w.cycle.IsChain ts.Joined
  closes : ∀ s ∈ w.cycle.getLast?, ∀ t ∈ w.cycle.head?, ts.Joined s t
  meets : w.stem.getLast? = w.cycle.head?

/-- Whether one run of the automaton reads the labels along the stem and once round the cycle, and
is in the accepting state `q` both at the end of the stem and after the cycle has closed. -/
def AcceptedAt (w : Lasso S) (ts : TransitionSystem S A P) (aut : BuchiAutomaton Q P) (q : Q) : Prop :=
  q ∈ aut.accepting ∧ ∃ q₀ before around, q₀ ∈ aut.initial ∧
    before.length + 1 = w.stem.length ∧ around.length + 1 = w.cycle.length ∧
    aut.IsRun q₀ ((w.stem ++ w.cycle.rotate 1).map ts.labelOf) (before ++ q :: (around ++ [q]))

end Lasso

namespace TransitionSystem

variable {ts : TransitionSystem S A P} {aut : BuchiAutomaton Q P}
variable {prod : TransitionSystem (S × Q) A Q} {w : Lasso S}

theorem isRun_of_isChain {x : S × Q} {xs : List (S × Q)} (h : (x :: xs).IsChain (ts.Joint aut)) :
    aut.IsRun x.2 ((xs.map Prod.fst).map ts.labelOf) (xs.map Prod.snd) := by
  induction xs generalizing x with
  | nil => trivial
  | cons y xs ih =>
    obtain ⟨⟨_, _, hr⟩, hxs⟩ := List.isChain_cons_cons.mp h
    exact ⟨hr, ih hxs⟩

theorem isChain_joined_of_joint {xs : List (S × Q)} (h : xs.IsChain (ts.Joint aut)) :
    (xs.map Prod.fst).IsChain ts.Joined := by
  rw [List.isChain_map]
  refine h.imp ?_
  rintro x y ⟨a, ha, _⟩
  exact ⟨a, ha⟩

/-- A trail of product states and a cycle through its end make a lasso that is accepted there. -/
theorem IsProduct.lasso (h : ts.IsProduct aut prod) {next : S × Q → List (S × Q)}
    {sources : List (S × Q)} (hlists : prod.Lists next sources) {t : Trail (S × Q)}
    {rest : List (S × Q)} (hfollows : t.Follows next sources) (hacc : t.last.2 ∈ aut.accepting)
    (hcycle : (t.last :: rest ++ [t.last]).IsChain prod.Joined)
    (hw : w = ⟨t.path.map Prod.fst, (t.last :: rest).map Prod.fst⟩) :
    w.IsRunOf ts ∧ w.AcceptedAt ts aut t.last.2 := by
  have hstem : t.path.IsChain (ts.Joint aut) :=
    hfollows.isChain.imp fun x y hxy => h.joint_of_joined ((hlists.mem_next x y).mp hxy)
  have hround : (t.last :: rest ++ [t.last]).IsChain (ts.Joint aut) :=
    hcycle.imp fun _ _ => h.joint_of_joined
  obtain ⟨x₀, hx₀, hhead⟩ := hfollows.exists_head
  have hx₀ : ts.Enters aut x₀ := (h.mem_initial x₀).mp ((hlists.mem_sources x₀).mp hx₀)
  subst hw
  constructor
  · have hclosed := isChain_joined_of_joint hround
    rw [List.map_append] at hclosed
    obtain ⟨hc, _, hclose⟩ := List.isChain_append.mp hclosed
    refine ⟨?_, by simp, ?_, isChain_joined_of_joint hstem, hc, ?_, ?_⟩
    · simp [t.path_eq]
    · intro s hs
      rw [List.head?_map, hhead] at hs
      cases hs
      exact hx₀.1
    · intro s hs u hu
      exact hclose s hs u hu
    · simp [t.path_eq]
  · obtain ⟨_, q₀, hq₀, hr⟩ := hx₀
    refine ⟨hacc, q₀, t.earlier.reverse.map Prod.snd, rest.map Prod.snd, hq₀, ?_, ?_, ?_⟩
    · simp [t.length_path, Trail.steps]
    · simp
    · -- The stem and the way round share the end of the trail and so make one run.
      have hwhole : (t.path ++ (rest ++ [t.last])).IsChain (ts.Joint aut) := by
        rw [t.path_eq] at hstem ⊢
        exact hstem.append_overlap hround (List.cons_ne_nil _ _)
      have hstates : t.path.map Prod.fst ++ ((t.last :: rest).map Prod.fst).rotate 1 =
          (t.path ++ (rest ++ [t.last])).map Prod.fst := by
        rw [List.map_cons, List.rotate_cons_succ, List.rotate_zero]
        simp
      have hrun : t.earlier.reverse.map Prod.snd ++ t.last.2 :: (rest.map Prod.snd ++ [t.last.2]) =
          (t.path ++ (rest ++ [t.last])).map Prod.snd := by
        simp [t.path_eq]
      rw [hstates, hrun]
      obtain ⟨ys, hys⟩ : ∃ ys, t.path ++ (rest ++ [t.last]) = x₀ :: ys := by
        obtain ⟨ys, hys⟩ := List.head?_eq_some_iff.mp hhead
        exact ⟨ys ++ (rest ++ [t.last]), by rw [hys, List.cons_append]⟩
      rw [hys] at hwhole ⊢
      exact ⟨hr, isRun_of_isChain hwhole⟩

theorem verify_violated_shortest_lasso (hts : ts.Built) (haut : aut.Built)
    (hw : ts.verify aut = .ok (.violated w)) :
    w.IsRunOf ts ∧ ∃ prod s q, ts.product aut = .ok prod ∧ w.cycle.head? = some s ∧
      w.AcceptedAt ts aut q ∧
      (∃ d, w.stem.length = d + 1 ∧
        (∃ x₀, x₀ ∈ prod.initial ∧ Walk prod.Joined x₀ d (s, q)) ∧
        IsLeast {n | ∃ x₀ y, x₀ ∈ prod.initial ∧ y.2 ∈ aut.accepting ∧ OnCycle prod.Joined y ∧
          Walk prod.Joined x₀ n y} d) ∧
      IsLeast {n | 0 < n ∧ Walk prod.Joined (s, q) n (s, q)} w.cycle.length := by
  obtain ⟨prod, hprod, hp⟩ := exists_isProduct hts.wellFormed haut.wellFormed
  have hlists := prod.lists_successors
  rw [verify_eq hprod] at hw
  obtain ⟨t, rest, hwt, hfollows, hacc, hcycle, hshort, hnear⟩ :=
    hp.exists_of_violated hlists (Except.ok.inj hw)
  obtain ⟨hrun, haccepted⟩ := hp.lasso hlists hfollows hacc hcycle hwt
  subst hwt
  refine ⟨hrun, prod, t.last.1, t.last.2, hprod, rfl, haccepted, ⟨t.steps, ?_, ?_, hnear⟩, ?_⟩
  · rw [List.length_map, t.length_path]
  · obtain ⟨x₀, hx₀, hwalk⟩ := hfollows.reachedIn
    exact ⟨x₀, (hlists.mem_sources x₀).mp hx₀, hlists.walk_iff.mp hwalk⟩
  · rw [List.length_map]
    exact hshort

theorem verify_latch_shortest_lasso :
    latch.verify finallyHolds = .ok (.violated ⟨[0, 1], [1]⟩) ∧
      (⟨[0, 1], [1]⟩ : Lasso Nat).IsRunOf latch ∧
      ∃ q, (⟨[0, 1], [1]⟩ : Lasso Nat).AcceptedAt latch finallyHolds q := by
  have hw : latch.verify finallyHolds = .ok (.violated ⟨[0, 1], [1]⟩) := rfl
  obtain ⟨hrun, _, _, q, _, _, haccepted, _⟩ :=
    verify_violated_shortest_lasso ⟨_, rfl⟩ ⟨_, rfl⟩ hw
  exact ⟨hw, hrun, q, haccepted⟩

end TransitionSystem

end OmegaCheck
