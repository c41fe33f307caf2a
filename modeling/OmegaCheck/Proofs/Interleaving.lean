import OmegaCheck.Proofs.Isomorphism
import OmegaCheck.Proofs.Store
import OmegaCheck.TransitionSystem.Interleaving
import Mathlib.Data.List.ProdSigma

/-!
# Interleavings with handshakes

Two systems built by changes can always be put in parallel, whatever the handshake actions are. The
result consists of the pairs that are met from pairs of initial states and of the composite moves
between them. Without handshakes the components do not hinder each other, and every pair of
reachable states is met.
-/

namespace OmegaCheck

/-- What is explored refers only to what is there. -/
theorem StateSpace.IsReachable.wellFormed {S A P ε : Type} [Element S] [Element A] [Element P]
    {moves : S → Except ε (List (A × S))} {initial : List S} {space : StateSpace S A}
    (h : IsReachable moves initial space) {name : Option String} {more : FinSet A}
    {props : FinSet P} {label : S → List P} :
    (space.toSystem name more props label).WellFormed where
  initial _ hs := h.mem_of_initial hs
  source _ ht := (h.mem_of_transition ht).1
  target _ ht := (h.mem_of_transition ht).2
  action t ht := FinSet.mem_union.mpr (.inr (FinSet.mem_image.mpr ⟨t, ht, rfl⟩))
  labelled s p hsp := by
    obtain ⟨r, hr, hmem⟩ := FinSet.mem_flatMap.mp hsp
    obtain ⟨q, _, heq⟩ := List.mem_map.mp hmem
    cases heq
    exact hr
  proposition s p hsp := by
    obtain ⟨r, hr, hmem⟩ := FinSet.mem_flatMap.mp hsp
    obtain ⟨q, hq, heq⟩ := List.mem_map.mp hmem
    cases heq
    exact FinSet.mem_union.mpr (.inr (FinSet.mem_flatMap.mpr ⟨s, hr, hq⟩))

namespace TransitionSystem

variable {S T A P : Type} [Element S] [Element T] [Element A] [Element P]
variable {handshake : FinSet A} {ts : TransitionSystem S A P} {us : TransitionSystem T A P}

/-- A step of one component while the other one waits, or a handshake of both. -/
inductive CompositeMove (handshake : FinSet A) (ts : TransitionSystem S A P)
    (us : TransitionSystem T A P) : S × T → A → S × T → Prop where
  | left {s s' : S} {a : A} (t : T) (ha : a ∉ handshake) (h : ⟨s, a, s'⟩ ∈ ts.transitions) :
    CompositeMove handshake ts us (s, t) a (s', t)
  | right {t t' : T} {a : A} (s : S) (ha : a ∉ handshake) (h : ⟨t, a, t'⟩ ∈ us.transitions) :
    CompositeMove handshake ts us (s, t) a (s, t')
  | both {s s' : S} {t t' : T} {a : A} (ha : a ∈ handshake) (h : ⟨s, a, s'⟩ ∈ ts.transitions)
    (h' : ⟨t, a, t'⟩ ∈ us.transitions) : CompositeMove handshake ts us (s, t) a (s', t')

def Moves (handshake : FinSet A) (ts : TransitionSystem S A P) (us : TransitionSystem T A P)
    (x y : S × T) : Prop :=
  ∃ a, CompositeMove handshake ts us x a y

/-- Whether composite moves lead from a pair of initial states to `x`. -/
def Met (handshake : FinSet A) (ts : TransitionSystem S A P) (us : TransitionSystem T A P)
    (x : S × T) : Prop :=
  ∃ x₀ n, (x₀.1 ∈ ts.initial ∧ x₀.2 ∈ us.initial) ∧ Walk (Moves handshake ts us) x₀ n x

theorem Met.step {x y : S × T} (h : Met handshake ts us x) (hy : Moves handshake ts us x y) :
    Met handshake ts us y := by
  obtain ⟨x₀, n, hx₀, hwalk⟩ := h
  exact ⟨x₀, n + 1, hx₀, hwalk.snoc hy⟩

section Reach

theorem mem_reach {s : S} : s ∈ ts.reach ↔ ∃ s₀ n, s₀ ∈ ts.initial ∧ Walk ts.Joined s₀ n s := by
  rw [reach, mem_reachFrom]
  constructor
  · rintro ⟨s₀, hs₀, n, hwalk⟩
    exact ⟨s₀, n, FinSet.mem_toList.mp hs₀, hwalk⟩
  · rintro ⟨s₀, n, hs₀, hwalk⟩
    exact ⟨s₀, FinSet.mem_toList.mpr hs₀, n, hwalk⟩

theorem mem_reach_of_transition {s s' : S} {a : A} (hs : s ∈ ts.reach)
    (h : ⟨s, a, s'⟩ ∈ ts.transitions) : s' ∈ ts.reach := by
  obtain ⟨s₀, n, hs₀, hwalk⟩ := mem_reach.mp hs
  exact mem_reach.mpr ⟨s₀, n + 1, hs₀, hwalk.snoc ⟨a, h⟩⟩

theorem WellFormed.mem_states_of_reach (h : ts.WellFormed) {s : S} (hs : s ∈ ts.reach) :
    s ∈ ts.states := by
  obtain ⟨s₀, n, hs₀, hwalk⟩ := mem_reach.mp hs
  exact hwalk.invariant (p := fun r => r ∈ ts.states) (h.initial s₀ hs₀)
    fun _ _ _ ⟨_, ht⟩ => h.target _ ht

theorem CompositeMove.reach {x y : S × T} {a : A} (h : CompositeMove handshake ts us x a y)
    (hleft : x.1 ∈ ts.reach) (hright : x.2 ∈ us.reach) : y.1 ∈ ts.reach ∧ y.2 ∈ us.reach := by
  cases h with
  | left t _ h => exact ⟨mem_reach_of_transition hleft h, hright⟩
  | right s _ h => exact ⟨hleft, mem_reach_of_transition hright h⟩
  | both _ h h' => exact ⟨mem_reach_of_transition hleft h, mem_reach_of_transition hright h'⟩

/-- What is met together is reached alone. -/
theorem Met.reach {x : S × T} (h : Met handshake ts us x) : x.1 ∈ ts.reach ∧ x.2 ∈ us.reach := by
  obtain ⟨x₀, n, ⟨hleft, hright⟩, hwalk⟩ := h
  refine hwalk.invariant (p := fun y => y.1 ∈ ts.reach ∧ y.2 ∈ us.reach) ?_ ?_
  · exact ⟨mem_reach.mpr ⟨_, 0, hleft, .nil _⟩, mem_reach.mpr ⟨_, 0, hright, .nil _⟩⟩
  · rintro y z ⟨hy, hy'⟩ ⟨a, hz⟩
    exact hz.reach hy hy'

theorem met_empty_iff {x : S × T} : Met ∅ ts us x ↔ x.1 ∈ ts.reach ∧ x.2 ∈ us.reach := by
  refine ⟨Met.reach, ?_⟩
  rintro ⟨hleft, hright⟩
  obtain ⟨s₀, n, hs₀, hwalk⟩ := mem_reach.mp hleft
  obtain ⟨t₀, m, ht₀, hwalk'⟩ := mem_reach.mp hright
  refine hwalk.invariant_pair (p := Met ∅ ts us) hwalk' ⟨(s₀, t₀), 0, ⟨hs₀, ht₀⟩, .nil _⟩ ?_ ?_
  · exact fun _ _ hr ⟨a, h⟩ => hr.step ⟨a, .left t₀ (FinSet.not_mem_empty a) h⟩
  · exact fun _ _ hr ⟨a, h⟩ => hr.step ⟨a, .right x.1 (FinSet.not_mem_empty a) h⟩

end Reach

section Exploration

theorem mem_jointMoves {x y : S × T} {a : A} :
    (a, y) ∈ jointMoves handshake x.1 x.2 (ts.successorTable.values x.1)
      (us.successorTable.values x.2) ↔ CompositeMove handshake ts us x a y := by
  obtain ⟨s, t⟩ := x
  simp only [jointMoves, List.mem_append, List.mem_flatMap, List.mem_map, List.mem_filter,
    decide_eq_true_eq]
  constructor
  · rintro (⟨⟨b, s'⟩, hm, hy⟩ | ⟨⟨b, t'⟩, ⟨hn, hb⟩, heq⟩)
    · split at hy
      next hb =>
        obtain ⟨⟨c, t'⟩, hfilter, heq⟩ := List.mem_map.mp hy
        obtain ⟨hn, rfl⟩ : (c, t') ∈ us.successorTable.values t ∧ c = b := by simpa using hfilter
        cases heq
        exact .both hb (mem_successorTable.mp hm) (mem_successorTable.mp hn)
      next hb =>
        cases List.mem_singleton.mp hy
        exact .left t hb (mem_successorTable.mp hm)
    · cases heq
      exact .right s hb (mem_successorTable.mp hn)
  · intro h
    cases h with
    | left _ ha h =>
      refine .inl ⟨_, mem_successorTable.mpr h, ?_⟩
      rw [if_neg ha]
      exact List.mem_singleton.mpr rfl
    | right _ ha h => exact .inr ⟨_, ⟨mem_successorTable.mpr h, ha⟩, rfl⟩
    | both ha h h' =>
      refine .inl ⟨_, mem_successorTable.mpr h, ?_⟩
      rw [if_pos ha]
      exact List.mem_map.mpr ⟨_, List.mem_filter.mpr ⟨mem_successorTable.mpr h', by simp⟩, rfl⟩

/-- Without handshakes one component moves and the other one stays. -/
theorem compositeMove_empty_iff {x y : S × T} {a : A} :
    CompositeMove ∅ ts us x a y ↔
      ⟨x.1, a, y.1⟩ ∈ ts.transitions ∧ y.2 = x.2 ∨ ⟨x.2, a, y.2⟩ ∈ us.transitions ∧ y.1 = x.1 := by
  obtain ⟨s, t⟩ := x
  obtain ⟨s', t'⟩ := y
  constructor
  · intro h
    cases h with
    | left _ _ h => exact .inl ⟨h, rfl⟩
    | right _ _ h => exact .inr ⟨h, rfl⟩
    | both ha => exact absurd ha (FinSet.not_mem_empty a)
  · rintro (⟨h, rfl⟩ | ⟨h, rfl⟩)
    · exact .left _ (FinSet.not_mem_empty a) h
    · exact .right _ (FinSet.not_mem_empty a) h

variable {ε : Type}

variable (handshake ts us) in
/-- The moves with which an interleaving is built; none of them is missing. -/
def compositeMoves (x : S × T) : Except ε (List (A × (S × T))) :=
  .ok (jointMoves handshake x.1 x.2 (ts.successorTable.values x.1) (us.successorTable.values x.2))

theorem leads_compositeMoves {x y : S × T} :
    StateSpace.Leads (compositeMoves (ε := ε) handshake ts us) x y ↔ Moves handshake ts us x y := by
  constructor
  · rintro ⟨_, a, ⟨⟩, hy⟩
    exact ⟨a, mem_jointMoves.mp hy⟩
  · rintro ⟨a, hy⟩
    exact ⟨_, a, rfl, mem_jointMoves.mpr hy⟩

theorem reached_compositeMoves {x : S × T} :
    StateSpace.Reached (compositeMoves (ε := ε) handshake ts us)
      (ts.initial.product us.initial).toList x ↔ Met handshake ts us x := by
  constructor
  · rintro ⟨x₀, hx₀, n, hwalk⟩
    refine ⟨x₀, n, by simpa using hx₀, hwalk.mono fun _ _ => leads_compositeMoves.mp⟩
  · rintro ⟨x₀, n, hx₀, hwalk⟩
    exact ⟨x₀, by simpa using hx₀, n, hwalk.mono fun _ _ => leads_compositeMoves.mpr⟩

theorem length_pairs (ts : TransitionSystem S A P) (us : TransitionSystem T A P) :
    (ts.states.toList ×ˢ us.states.toList).length = ts.states.size * us.states.size := by
  rw [List.length_product, FinSet.length_toList, FinSet.length_toList]

theorem mem_of_reached_compositeMoves (hts : ∀ s, s ∈ ts.reach → s ∈ ts.states)
    (hus : ∀ t, t ∈ us.reach → t ∈ us.states) {x : S × T}
    (hx : StateSpace.Reached (compositeMoves (ε := ε) handshake ts us)
      (ts.initial.product us.initial).toList x) : x ∈ ts.states.toList ×ˢ us.states.toList := by
  obtain ⟨hleft, hright⟩ := (reached_compositeMoves.mp hx).reach
  exact List.mem_product.mpr ⟨FinSet.mem_toList.mpr (hts _ hleft),
    FinSet.mem_toList.mpr (hus _ hright)⟩

variable (handshake)

theorem isReachable_interleave_of_reach (hts : ∀ s, s ∈ ts.reach → s ∈ ts.states)
    (hus : ∀ t, t ∈ us.reach → t ∈ us.states) :
    StateSpace.IsReachable (compositeMoves (ε := ε) handshake ts us)
      (ts.initial.product us.initial).toList (interleave handshake ts us).space :=
  StateSpace.isReachable_reachable (fun _ => mem_of_reached_compositeMoves hts hus)
    (length_pairs ts us).le

variable (hts : ts.WellFormed) (hus : us.WellFormed)
include hts hus

theorem isReachable_interleave :
    StateSpace.IsReachable (compositeMoves (ε := InterleaveError S T A P) handshake ts us)
      (ts.initial.product us.initial).toList (interleave handshake ts us).space :=
  isReachable_interleave_of_reach handshake (fun _ => hts.mem_states_of_reach)
    fun _ => hus.mem_states_of_reach

/-- The composite states are pairs of states, so that the horizon is not met. -/
theorem explore_compositeMoves : StateSpace.explore { horizon := ts.states.size * us.states.size }
    (ts.initial.product us.initial).toList
      (compositeMoves (ε := InterleaveError S T A P) handshake ts us) =
      .ok (interleave handshake ts us).space := by
  obtain ⟨space, hspace⟩ : ∃ space, StateSpace.explore
      { horizon := ts.states.size * us.states.size } (ts.initial.product us.initial).toList
        (compositeMoves (ε := InterleaveError S T A P) handshake ts us) = .ok space :=
    StateSpace.exists_explore _ (fun x _ => ⟨_, rfl⟩)
      (fun _ => mem_of_reached_compositeMoves (fun _ => hts.mem_states_of_reach)
        fun _ => hus.mem_states_of_reach) (length_pairs ts us).le
  have hreach := StateSpace.isReachable_of_explore hspace
  rw [hspace, hreach.unique (isReachable_interleave handshake hts hus)]

end Exploration

section Labelling

/-- A loop that adds labels in each step and changes nothing else. -/
theorem foldlM_eq_ok_insertAll {α ε : Type}
    {step : TransitionSystem S A P → α → Except ε (TransitionSystem S A P)}
    {new : α → List (S × P)} {l : List α}
    (h : ∀ a ∈ l, ∀ labels, step { ts with labels := labels } a =
      .ok { ts with labels := labels.insertAll (new a) }) (labels : FinSet (S × P)) :
    l.foldlM step { ts with labels := labels } =
      .ok { ts with labels := labels.insertAll (l.flatMap new) } := by
  induction l generalizing labels with
  | nil => rfl
  | cons a l ih =>
    have hlabels : labels.insertAll ((a :: l).flatMap new) =
        (labels.insertAll (new a)).insertAll (l.flatMap new) := List.foldl_append
    rw [List.foldlM_cons, h a List.mem_cons_self, hlabels]
    exact ih (fun b hb => h b (List.mem_cons_of_mem a hb)) _

theorem addLabels_eq_ok {s : S} {ps : List P} (hs : s ∈ ts.states)
    (hps : ∀ p ∈ ps, p ∈ ts.propositions) :
    ts.addLabels s ps = .ok { ts with labels := ts.labels.insertAll (ps.map fun p => (s, p)) } := by
  rw [List.map_eq_flatMap]
  refine foldlM_eq_ok_insertAll (fun p hp labels => ?_) ts.labels
  exact if_pos ⟨hps p hp, hs⟩

theorem labelPair_eq_ok {left : S → List P} {right : T → List P}
    {joint : TransitionSystem (S × T) A P} {x : S × T} (hleft : x.1 ∈ ts.states)
    (hright : x.2 ∈ us.states) (hx : x ∈ joint.states)
    (hps : ∀ p ∈ left x.1 ++ right x.2, p ∈ joint.propositions) :
    labelPair ts us left right joint x = .ok { joint with
      labels := joint.labels.insertAll ((left x.1 ++ right x.2).map fun p => (x, p)) } := by
  rw [labelPair, checkState, if_pos hleft, checkState, if_pos hright, addLabels_eq_ok hx hps]
  rfl

/-- Labelling the states one by one gives the system with all its labels, if the propositions are
known. -/
theorem label_toSystem {space : StateSpace S A} {name : Option String} {more : FinSet A}
    {props : FinSet P} {label : S → List P}
    (h : ∀ s, s ∈ space.states → ∀ p ∈ label s, p ∈ props) :
    { space.toSystem name more props fun _ => [] with
      labels := (space.toSystem name more props fun _ => []).labels.insertAll
        (space.states.toList.flatMap fun s => (label s).map fun p => (s, p)) } =
      space.toSystem name more props label := by
  have hprops : props ∪ space.states.flatMap (fun _ => []) = props ∪ space.states.flatMap label := by
    refine FinSet.ext fun p => ?_
    simp only [FinSet.mem_union, FinSet.mem_flatMap, List.not_mem_nil, and_false, exists_false,
      or_false]
    refine (or_iff_left_of_imp ?_).symm
    rintro ⟨s, hs, hp⟩
    exact h s hs p hp
  have hlabels : (space.states.flatMap fun s => ([] : List P).map fun p => (s, p)).insertAll
      (space.states.toList.flatMap fun s => (label s).map fun p => (s, p)) =
      space.states.flatMap fun s => (label s).map fun p => (s, p) := by
    refine FinSet.ext fun x => ?_
    simp
  simp only [StateSpace.toSystem, hprops, hlabels]

theorem foldlM_labelPair_eq_ok {space : StateSpace (S × T) A} {name : Option String}
    {more : FinSet A} {props : FinSet P} {left : S → List P} {right : T → List P}
    (hstates : ∀ x, x ∈ space.states → x.1 ∈ ts.states ∧ x.2 ∈ us.states)
    (hprops : ∀ x, x ∈ space.states → ∀ p ∈ left x.1 ++ right x.2, p ∈ props) :
    space.states.toList.foldlM (labelPair ts us left right)
      (space.toSystem name more props fun _ => []) =
      .ok (space.toSystem name more props fun x => left x.1 ++ right x.2) := by
  have hstep : ∀ x ∈ space.states.toList, ∀ labels, labelPair ts us left right
      { space.toSystem name more props fun _ => [] with labels := labels } x =
      .ok { space.toSystem name more props fun _ => [] with
        labels := labels.insertAll ((left x.1 ++ right x.2).map fun p => (x, p)) } := by
    intro x hx labels
    have hx := FinSet.mem_toList.mp hx
    obtain ⟨hleft, hright⟩ := hstates x hx
    exact labelPair_eq_ok hleft hright hx fun p hp =>
      FinSet.mem_union.mpr (.inl (hprops x hx p hp))
  rw [← label_toSystem hprops]
  exact foldlM_eq_ok_insertAll hstep _

theorem mem_propositions_of_mem_labels (hts : ts.WellFormed) (hus : us.WellFormed) {x : S × T}
    {p : P} (hp : p ∈ ts.labelTable.values x.1 ++ us.labelTable.values x.2) :
    p ∈ ts.propositions ∪ us.propositions := by
  rw [FinSet.mem_union]
  rcases List.mem_append.mp hp with hp | hp
  · exact .inl (hts.proposition _ _ (mem_labelTable.mp hp))
  · exact .inr (hus.proposition _ _ (mem_labelTable.mp hp))

/-- Neither the exploration nor the labelling is ever refused. -/
theorem interleaveChecked_eq_ok (handshake : FinSet A) (hts : ts.WellFormed)
    (hus : us.WellFormed) :
    interleaveChecked handshake ts us = .ok (interleave handshake ts us) := by
  have hstates : ∀ x, x ∈ (interleave handshake ts us).space.states →
      x.1 ∈ ts.states ∧ x.2 ∈ us.states := by
    intro x hx
    have hreached := ((isReachable_interleave handshake hts hus).mem_states x).mp hx
    obtain ⟨hleft, hright⟩ := (reached_compositeMoves.mp hreached).reach
    exact ⟨hts.mem_states_of_reach hleft, hus.mem_states_of_reach hright⟩
  have hprops : ∀ x, x ∈ (interleave handshake ts us).space.states →
      ∀ p ∈ ts.labelTable.values x.1 ++ us.labelTable.values x.2,
        p ∈ ts.propositions ∪ us.propositions :=
    fun x _ p hp => mem_propositions_of_mem_labels hts hus hp
  change (StateSpace.explore _ _ (compositeMoves handshake ts us) >>= _) = _
  rw [explore_compositeMoves handshake hts hus]
  exact congrArg (Except.mapError Halt.failure) (foldlM_labelPair_eq_ok hstates hprops)

end Labelling

/-- The composite states that are met, with the composite moves between them, all actions and
propositions of the components and the labels of both. -/
structure IsInterleaving (handshake : FinSet A) (ts : TransitionSystem S A P)
    (us : TransitionSystem T A P) (joint : TransitionSystem (S × T) A P) : Prop where
  mem_initial : ∀ x, x ∈ joint.initial ↔ x.1 ∈ ts.initial ∧ x.2 ∈ us.initial
  mem_states : ∀ x, x ∈ joint.states ↔ Met handshake ts us x
  mem_transitions : ∀ x a y, ⟨x, a, y⟩ ∈ joint.transitions ↔
    x ∈ joint.states ∧ CompositeMove handshake ts us x a y
  actions : joint.actions = ts.actions ∪ us.actions
  propositions : joint.propositions = ts.propositions ∪ us.propositions
  label : ∀ x, x ∈ joint.states → joint.labelOf x = ts.labelOf x.1 ∪ us.labelOf x.2

theorem CompositeMove.mem_actions (hts : ts.WellFormed) (hus : us.WellFormed) {x y : S × T} {a : A}
    (h : CompositeMove handshake ts us x a y) : a ∈ ts.actions ∪ us.actions := by
  cases h with
  | left t _ h => exact FinSet.mem_union.mpr (.inl (hts.action _ h))
  | right s _ h => exact FinSet.mem_union.mpr (.inr (hus.action _ h))
  | both _ h _ => exact FinSet.mem_union.mpr (.inl (hts.action _ h))

theorem isInterleaving_interleave (handshake : FinSet A) (hts : ts.WellFormed)
    (hus : us.WellFormed) : IsInterleaving handshake ts us (interleave handshake ts us) := by
  have hreach := isReachable_interleave handshake hts hus
  have htransitions : ∀ x a y, ⟨x, a, y⟩ ∈ (interleave handshake ts us).transitions ↔
      x ∈ (interleave handshake ts us).states ∧ CompositeMove handshake ts us x a y := by
    intro x a y
    refine (hreach.mem_transitions ⟨x, a, y⟩).trans (and_congr_right fun _ => ?_)
    constructor
    · rintro ⟨_, ⟨⟩, hy⟩
      exact mem_jointMoves.mp hy
    · exact fun hy => ⟨_, rfl, mem_jointMoves.mpr hy⟩
  constructor
  case mem_initial => exact fun x => (hreach.mem_initial x).trans (by simp)
  case mem_states => exact fun x => (hreach.mem_states x).trans reached_compositeMoves
  case mem_transitions => exact htransitions
  case actions =>
    refine FinSet.ext fun a => ?_
    rw [interleave, StateSpace.toSystem, FinSet.mem_union, FinSet.mem_image]
    refine or_iff_left_of_imp ?_
    rintro ⟨⟨x, _, y⟩, ht, rfl⟩
    exact ((htransitions _ _ _).mp ht).2.mem_actions hts hus
  case propositions =>
    refine FinSet.ext fun p => ?_
    rw [interleave, StateSpace.toSystem, FinSet.mem_union, FinSet.mem_flatMap]
    refine or_iff_left_of_imp ?_
    rintro ⟨x, _, hp⟩
    exact mem_propositions_of_mem_labels hts hus hp
  case label =>
    intro x hx
    rw [interleave, StateSpace.labelOf_toSystem hx]
    refine FinSet.ext fun p => ?_
    simp only [FinSet.mem_ofList, List.mem_append, FinSet.mem_union, mem_labelTable, mem_labelOf]

theorem interleaveChecked_isInterleaving (hts : ts.Built) (hus : us.Built) :
    (∀ handshake, interleaveChecked handshake ts us = .ok (interleave handshake ts us) ∧
      IsInterleaving handshake ts us (interleave handshake ts us)) ∧
    (interleave ∅ ts us).states = ts.reach.product us.reach := by
  have hall := fun handshake => isInterleaving_interleave handshake hts.wellFormed hus.wellFormed
  refine ⟨fun handshake => ⟨?_, hall handshake⟩, FinSet.ext fun x => ?_⟩
  · exact interleaveChecked_eq_ok handshake hts.wellFormed hus.wellFormed
  · rw [(hall ∅).mem_states, met_empty_iff, FinSet.mem_product]

/-- Swings between the states 0 and 1 by action 0, and may stay in state 1 by action 1. State 2 is
not reachable. -/
def swing (p : Nat) : TransitionSystem Nat Nat Nat :=
  ofChanges [.addStates [0, 1, 2], .addActions [0, 1], .addProposition p, .addInitial 0,
    .addTransition ⟨0, 0, 1⟩, .addTransition ⟨1, 0, 0⟩, .addTransition ⟨1, 1, 1⟩,
    .addTransition ⟨2, 1, 0⟩, .addLabel 1 p]

/-- Swinging together, both are always in the same state; action 9 belongs to neither. -/
theorem interleaveChecked_swing :
    ∃ joint free, interleaveChecked (FinSet.ofList [0, 9]) (swing 3) (swing 4) = .ok joint ∧
      IsInterleaving (FinSet.ofList [0, 9]) (swing 3) (swing 4) joint ∧
      joint.states.toList = [(0, 0), (1, 1)] ∧ joint.actions.toList = [0, 1] ∧
      joint.labels.toList = [((1, 1), 3), ((1, 1), 4)] ∧
      interleaveChecked ∅ (swing 3) (swing 4) = .ok free ∧ free.states.size = 4 ∧
      free.states = (swing 3).reach.product (swing 4).reach := by
  obtain ⟨hall, hfree⟩ := interleaveChecked_isInterleaving (show (swing 3).Built from ⟨_, rfl⟩)
    (show (swing 4).Built from ⟨_, rfl⟩)
  obtain ⟨hjoint, hspec⟩ := hall (FinSet.ofList [0, 9])
  exact ⟨_, _, hjoint, hspec, rfl, rfl, rfl, (hall ∅).1, rfl, hfree⟩

end TransitionSystem

end OmegaCheck
