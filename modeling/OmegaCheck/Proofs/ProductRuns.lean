import OmegaCheck.Proofs.Isomorphism
import OmegaCheck.Proofs.Verification

/-!
# Runs behind product states

A product state is a state of the system together with one that the automaton can be in after it
has read the labels along some path to the former.
-/

namespace OmegaCheck

theorem Walk.exists_isChain {S : Type} {R : S → S → Prop} {x y : S} {n : Nat} (h : Walk R x n y) :
    ∃ xs, (x :: xs).IsChain R ∧ (x :: xs).getLast? = some y := by
  induction n generalizing x with
  | zero =>
    obtain rfl := h.eq_of_zero
    exact ⟨[], .singleton x, rfl⟩
  | succ n ih =>
    obtain ⟨z, hz, h⟩ := h.cases_head
    obtain ⟨xs, hchain, hlast⟩ := ih h
    exact ⟨z :: xs, hchain.cons_cons hz, by rwa [List.getLast?_cons_cons]⟩

section ToSystem

variable {S A P : Type} [Element S] [Element A] [Element P]
variable {space : StateSpace S A} {name : Option String} {more : FinSet A} {props : FinSet P}
variable {label : S → List P}

theorem StateSpace.actions_toSystem (h : ∀ t ∈ space.transitions, t.action ∈ more) :
    (space.toSystem name more props label).actions = more := by
  refine FinSet.ext fun a => FinSet.mem_union.trans (or_iff_left_of_imp fun ha => ?_)
  obtain ⟨t, ht, rfl⟩ := FinSet.mem_image.mp ha
  exact h t ht

theorem StateSpace.propositions_toSystem (h : ∀ s ∈ space.states, ∀ p ∈ label s, p ∈ props) :
    (space.toSystem name more props label).propositions = props := by
  refine FinSet.ext fun p => FinSet.mem_union.trans (or_iff_left_of_imp fun hp => ?_)
  obtain ⟨s, hs, hp⟩ := FinSet.mem_flatMap.mp hp
  exact h s hs p hp

end ToSystem

variable {S A P Q : Type} [Element S] [Element A] [Element P] [Element Q]

/-- Whether the automaton, started in an initial state, can be in `q` after it has read the labels
one after the other. -/
def Semiautomaton.CanRead (aut : Semiautomaton Q P) (labels : List (FinSet P)) (q : Q) : Prop :=
  ∃ q₀ rs, q₀ ∈ aut.initial ∧ aut.IsRun q₀ labels rs ∧ rs.getLast? = some q

namespace TransitionSystem

/-- A path of the system from an initial state to `s`. -/
structure IsPathTo (ts : TransitionSystem S A P) (path : List S) (s : S) : Prop where
  initial : ∀ s₀ ∈ path.head?, s₀ ∈ ts.initial
  joined : path.IsChain ts.Joined
  last : path.getLast? = some s

variable {ts : TransitionSystem S A P} {aut : BuchiAutomaton Q P}

/-- The automaton steps along with the system, label by label. -/
theorem exists_walk_joint {s t : S} {q r : Q} {path : List S} {rs : List Q}
    (hpath : (s :: path).IsChain ts.Joined) (hrun : aut.IsRun q (path.map ts.labelOf) rs)
    (ht : (s :: path).getLast? = some t) (hr : (q :: rs).getLast? = some r) :
    ∃ n, Walk (ts.Joint aut) (s, q) n (t, r) := by
  induction path generalizing s q rs with
  | nil =>
    cases rs with
    | nil =>
      cases ht
      cases hr
      exact ⟨0, .nil _⟩
    | cons q' rs => exact hrun.elim
  | cons s' path ih =>
    cases rs with
    | nil => exact hrun.elim
    | cons q' rs =>
      obtain ⟨⟨a, ha⟩, hpath⟩ := List.isChain_cons_cons.mp hpath
      obtain ⟨hq', hrun⟩ := hrun
      rw [List.getLast?_cons_cons] at ht hr
      obtain ⟨n, hwalk⟩ := ih hpath hrun ht hr
      have hstep : ts.Joint aut (s, q) (s', q') := ⟨a, ha, hq'⟩
      exact ⟨n + 1, hwalk.cons hstep⟩

theorem exists_walk_joint_iff {x : S × Q} :
    (∃ x₀ n, ts.Enters aut x₀ ∧ Walk (ts.Joint aut) x₀ n x) ↔
      ∃ path, ts.IsPathTo path x.1 ∧ aut.CanRead (path.map ts.labelOf) x.2 := by
  constructor
  · rintro ⟨x₀, n, ⟨hs₀, q₀, hq₀, hread⟩, hwalk⟩
    obtain ⟨xs, hchain, hlast⟩ := hwalk.exists_isChain
    refine ⟨(x₀ :: xs).map Prod.fst, ⟨?_, isChain_joined_of_joint hchain, ?_⟩, q₀,
      (x₀ :: xs).map Prod.snd, hq₀, ⟨hread, isRun_of_isChain hchain⟩, ?_⟩
    · intro s hs
      cases hs
      exact hs₀
    · rw [List.getLast?_map, hlast, Option.map_some]
    · rw [List.getLast?_map, hlast, Option.map_some]
  · rintro ⟨path, hpath, q₀, rs, hq₀, hrun, hr⟩
    cases path with
    | nil => cases hpath.last
    | cons s₀ path =>
      cases rs with
      | nil => cases hr
      | cons r₀ rs =>
        -- The run has read the first label when it comes to the first state of the product.
        obtain ⟨hread, hrun⟩ := hrun
        obtain ⟨n, hwalk⟩ := exists_walk_joint hpath.joined hrun hpath.last hr
        exact ⟨(s₀, r₀), n, ⟨hpath.initial s₀ rfl, q₀, hq₀, hread⟩, hwalk⟩

theorem enters_iff {x : S × Q} :
    ts.Enters aut x ↔ ts.IsPathTo [x.1] x.1 ∧ aut.CanRead [ts.labelOf x.1] x.2 := by
  constructor
  · rintro ⟨hs, q, hq, hr⟩
    refine ⟨⟨?_, .singleton _, rfl⟩, q, [x.2], hq, ⟨hr, trivial⟩, rfl⟩
    intro s₀ hs₀
    cases hs₀
    exact hs
  · rintro ⟨hpath, q, rs, hq, hrun, hr⟩
    refine ⟨hpath.initial _ rfl, q, hq, ?_⟩
    match rs, hrun, hr with
    | [r], hrun, hr =>
      cases hr
      exact hrun.1

/-- The product of a system and an automaton, told by the paths of the one and the runs of the
other. -/
theorem product_eq_ok_runs (hts : ts.Built) (haut : aut.Built) :
    ∃ prod, ts.product aut = .ok prod ∧
      (∀ s q, (s, q) ∈ prod.states ↔
        ∃ path, ts.IsPathTo path s ∧ aut.CanRead (path.map ts.labelOf) q) ∧
      (∀ s q, (s, q) ∈ prod.initial ↔ ts.IsPathTo [s] s ∧ aut.CanRead [ts.labelOf s] q) ∧
      (∀ s q a s' q', ⟨(s, q), a, (s', q')⟩ ∈ prod.transitions ↔ (s, q) ∈ prod.states ∧
        ⟨s, a, s'⟩ ∈ ts.transitions ∧ q' ∈ aut.next q (ts.labelOf s')) ∧
      (∀ x ∈ prod.states, prod.labelOf x = FinSet.ofList [x.2]) ∧
      prod.actions = ts.actions ∧ prod.propositions = aut.states := by
  have hts := hts.wellFormed
  have haut := haut.wellFormed
  obtain ⟨prod, hprod, hp⟩ := exists_isProduct hts haut
  obtain ⟨space, hspace⟩ := exists_explore_totalMoves hts haut
  have hreach := StateSpace.isReachable_of_explore hspace
  obtain rfl := Except.ok.inj ((product_eq_ok hts haut hspace).symm.trans hprod)
  refine ⟨_, hprod, fun s q => ?_, fun s q => ?_, fun s q a s' q' => hp.mem_transitions _ _ _,
    fun x hx => StateSpace.labelOf_toSystem hx, ?_, ?_⟩
  · rw [hp.mem_states, exists_walk_joint_iff]
  · rw [hp.mem_initial, enters_iff]
  · refine StateSpace.actions_toSystem fun t ht => hts.action ⟨t.source.1, t.action, t.target.1⟩ ?_
    exact ((hp.mem_transitions t.source t.action t.target).mp ht).2.1
  · refine StateSpace.propositions_toSystem fun x hx q hq => ?_
    obtain rfl := List.mem_singleton.mp hq
    exact (mem_of_reached hts haut ((hreach.mem_states x).mp hx)).2

/-- Once the latch is closed the automaton has seen it. -/
theorem product_latch_runs : ∃ prod, latch.product finallyHolds = .ok prod ∧
    prod.states.toList = [(0, 0), (1, 1)] ∧ prod.initial.toList = [(0, 0)] ∧
    (∃ path, latch.IsPathTo path 1 ∧ finallyHolds.CanRead (path.map latch.labelOf) 1) ∧
    ¬ ∃ path, latch.IsPathTo path 1 ∧ finallyHolds.CanRead (path.map latch.labelOf) 0 := by
  obtain ⟨prod, hprod, hstates, _⟩ :=
    product_eq_ok_runs (show latch.Built from ⟨_, rfl⟩) (show finallyHolds.Built from ⟨_, rfl⟩)
  have hrun : (latch.product finallyHolds).map
      (fun prod => (prod.states.toList, prod.initial.toList)) = .ok ([(0, 0), (1, 1)], [(0, 0)]) := rfl
  rw [hprod] at hrun
  obtain ⟨hlist, hinitial⟩ := Prod.mk.inj (Except.ok.inj hrun)
  refine ⟨_, hprod, hlist, hinitial, (hstates 1 1).mp ?_, fun h => ?_⟩
  · rw [← FinSet.mem_toList, hlist]
    decide
  · have h := FinSet.mem_toList.mpr ((hstates 1 0).mpr h)
    rw [hlist] at h
    exact absurd h (by decide)

end TransitionSystem

end OmegaCheck
