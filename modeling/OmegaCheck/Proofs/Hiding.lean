import OmegaCheck.Proofs.TransitionStore
import OmegaCheck.Proofs.Verification

/-!
# Hiding propositions

A proposition that an automaton does not look at can be taken off a system before the system is
verified: it is struck out of every label, after which nothing uses it and it can be removed. The
automaton then runs along the system as before, so that the product and the verdict stay the same.
-/

namespace OmegaCheck

variable {S A P Q : Type} [Element S] [Element A] [Element P] [Element Q]

namespace BuchiAutomaton

/-- Among the labels over `props`, those that differ in `p` only lead to the same states. -/
def Ignores (aut : BuchiAutomaton Q P) (props : FinSet P) (p : P) : Prop :=
  ∀ q label, (∀ r, r ∈ label → r ∈ props) → aut.next q (label.erase p) = aut.next q label

theorem ignores_of_transitions {aut : BuchiAutomaton Q P} {props : FinSet P} {p : P}
    (h : ∀ t ∈ aut.transitions.toList, (t.1, t.2.1.erase p, t.2.2) ∈ aut.transitions ∧
      (t.1, t.2.1.insert p, t.2.2) ∈ aut.transitions) : aut.Ignores props p := by
  intro q label _
  apply FinSet.ext
  intro r
  rw [Semiautomaton.mem_next, Semiautomaton.mem_next]
  constructor
  · intro ht
    by_cases hp : p ∈ label
    · have hback : (label.erase p).insert p = label := by
        apply FinSet.ext
        intro x
        rw [FinSet.mem_insert, FinSet.mem_erase]
        by_cases hx : x = p <;> simp [hx, hp]
      rw [← hback]
      exact (h _ (FinSet.mem_toList.mpr ht)).2
    · have hsame : label.erase p = label := by
        apply FinSet.ext
        intro x
        rw [FinSet.mem_erase, and_iff_right_iff_imp]
        rintro hx rfl
        exact hp hx
      rwa [hsame] at ht
  · exact fun ht => (h _ (FinSet.mem_toList.mpr ht)).1

end BuchiAutomaton

namespace TransitionSystem

variable {ts us : TransitionSystem S A P} {aut : BuchiAutomaton Q P}

/-- The two systems have the same parts except for their labels, and the automaton reads the label
of a state of the one as it reads that of the other. -/
structure AlikeTo (aut : BuchiAutomaton Q P) (ts us : TransitionSystem S A P) : Prop where
  initial : us.initial = ts.initial
  actions : us.actions = ts.actions
  transitions : us.transitions = ts.transitions
  next : ∀ q s, aut.next q (us.labelOf s) = aut.next q (ts.labelOf s)

namespace AlikeTo

variable (h : AlikeTo aut ts us)
include h

theorem enters : us.Enters aut = ts.Enters aut := by
  funext x
  simp only [Enters, h.initial, h.next]

theorem jointStep : us.JointStep aut = ts.JointStep aut := by
  funext x a y
  simp only [JointStep, h.transitions, h.next]

theorem isProduct {prod : TransitionSystem (S × Q) A Q} (hprod : us.IsProduct aut prod) :
    ts.IsProduct aut prod := by
  have hjoint : us.Joint aut = ts.Joint aut := by
    funext x y
    rw [Joint, Joint, h.jointStep]
  refine ⟨fun x => ?_, fun x => ?_, fun x a y => ?_⟩
  · rw [← h.enters]
    exact hprod.mem_initial x
  · rw [← h.enters, ← hjoint]
    exact hprod.mem_states x
  · rw [← h.jointStep]
    exact hprod.mem_transitions x a y

theorem product_eq (hts : ts.WellFormed) (hus : us.WellFormed) (haut : aut.WellFormed) :
    us.product aut = ts.product aut := by
  obtain ⟨space, hspace⟩ := exists_explore_totalMoves hts haut
  obtain ⟨space', hspace'⟩ := exists_explore_totalMoves hus haut
  have hprod : ts.IsProduct aut (space.toSystem none ts.actions aut.states fun x => [x.2]) :=
    isProduct_of_explore hspace
  -- What makes a product of `us` makes one of `ts` as well, so there are two products of `ts`.
  have hprod' : ts.IsProduct aut (space'.toSystem none ts.actions aut.states fun x => [x.2]) :=
    h.isProduct (isProduct_of_explore hspace')
  have hstates : space'.states = space.states :=
    FinSet.ext fun x => (hprod'.mem_states x).trans (hprod.mem_states x).symm
  have hinitial : space'.initial = space.initial :=
    FinSet.ext fun x => (hprod'.mem_initial x).trans (hprod.mem_initial x).symm
  have htransitions : space'.transitions = space.transitions := by
    apply FinSet.ext
    intro t
    have ht := hprod.mem_transitions t.source t.action t.target
    have ht' := hprod'.mem_transitions t.source t.action t.target
    exact ht'.trans (Iff.trans (by rw [StateSpace.toSystem, StateSpace.toSystem, hstates]) ht.symm)
  rw [product_eq_ok hus haut hspace', product_eq_ok hts haut hspace, h.actions]
  simp only [StateSpace.toSystem, hstates, hinitial, htransitions]

end AlikeTo

end TransitionSystem

namespace TransitionStore

open TransitionSystem (Change Error)

/-- Strikes `p` out of the labels of the listed states and removes it. -/
def hide (order : List S) (p : P) : Edit S A P := do
  order.forM fun s => removeLabel s p
  removeProposition p

/-- The second store is the first one without `p`. -/
structure Drops (p : P) (st st' : TransitionStore S A P) : Prop where
  name : st'.name = st.name
  states : st'.states = st.states
  initial : st'.initial = st.initial
  actions : st'.actions = st.actions
  transitions : st'.transitions = st.transitions
  successors : st'.successors = st.successors
  predecessors : st'.predecessors = st.predecessors
  propositions : st'.propositions = st.propositions.erase p
  labeling : ∀ s, st'.labeling.get? s = (st.labeling.get? s).map fun label => label.erase p

theorem forM_removeLabel (order : List S) (p : P) (st : TransitionStore S A P) :
    (order.forM fun s => removeLabel s p : Edit S A P) st =
      .ok () { st with
        labeling := order.foldl (fun labeling s => labeling.removeMember s p) st.labeling } := by
  induction order generalizing st with
  | nil => rfl
  | cons s order ih => exact ih { st with labeling := st.labeling.removeMember s p }

theorem get?_foldl_removeMember (order : List S) (p : P) (labeling : FinMap S (FinSet P)) (s : S) :
    (order.foldl (fun labeling r => labeling.removeMember r p) labeling).get? s =
      if s ∈ order then (labeling.get? s).map fun label => label.erase p
      else labeling.get? s := by
  have htwice : ∀ label : FinSet P, (label.erase p).erase p = label.erase p := by
    intro label
    apply FinSet.ext
    intro x
    simp
  induction order generalizing labeling with
  | nil => simp
  | cons r order ih =>
    rw [List.foldl_cons, ih, FinMap.removeMember, FinMap.get?_alter]
    by_cases hs : s = r
    · by_cases hr : r ∈ order <;> simp [hs, hr, Function.comp_def, htwice]
    · simp [hs]

variable {st st' : TransitionStore S A P} {p : P}

theorem exists_hide_eq_ok (h : st.InStep) {order : List S}
    (horder : ∀ s, s ∈ st.states → s ∈ order) :
    ∃ st', hide order p st = .ok () st' ∧ st.Drops p st' := by
  let struck : TransitionStore S A P :=
    { st with labeling := order.foldl (fun labeling s => labeling.removeMember s p) st.labeling }
  have hstruck : ∀ s, struck.labeling.get? s =
      (st.labeling.get? s).map fun label => label.erase p := by
    intro s
    rw [get?_foldl_removeMember]
    split
    · rfl
    · rename_i hs
      cases hlabel : st.labeling.get? s with
      | none => rfl
      | some label => exact absurd (horder s ((h.labelled s).mp ⟨label, hlabel⟩)) hs
  -- No label is left with `p`, so that its removal is not refused.
  have hunused : ¬ (struck.labeling.toList.any fun l => l.2.contains p) = true := by
    rw [List.any_eq_true]
    rintro ⟨⟨s, label⟩, hl, hp⟩
    rw [FinMap.mem_toList, hstruck, Option.map_eq_some_iff] at hl
    obtain ⟨label, _, rfl⟩ := hl
    simp at hp
  have hremove : removeProposition p struck =
      .ok () { struck with propositions := st.propositions.erase p } := by
    change (if struck.labeling.toList.any fun l => l.2.contains p then throw (.propositionInUse p)
      else set { struck with propositions := st.propositions.erase p } : Edit S A P) struck = _
    rw [if_neg hunused]
    rfl
  refine ⟨{ struck with propositions := st.propositions.erase p }, ?_, rfl, rfl, rfl, rfl, rfl, rfl,
    rfl, rfl, hstruck⟩
  rw [hide, ← hremove]
  change EStateM.bind _ _ st = _
  rw [EStateM.bind, forM_removeLabel]

namespace Drops

variable (h : st.Drops p st')
include h

theorem mem_labels_iff {s : S} {q : P} : (s, q) ∈ st'.labels ↔ q ≠ p ∧ (s, q) ∈ st.labels := by
  rw [mem_labels, mem_labels, FinMap.members, FinMap.members, h.labeling]
  cases st.labeling.get? s <;> simp

theorem labelOf_eq (s : S) : st'.toSystem.labelOf s = (st.toSystem.labelOf s).erase p := by
  apply FinSet.ext
  intro q
  rw [FinSet.mem_erase, TransitionSystem.mem_labelOf, TransitionSystem.mem_labelOf]
  exact h.mem_labels_iff

theorem toSystem_eq : st'.toSystem =
    { st.toSystem with propositions := st.propositions.erase p, labels := st'.labels } := by
  simp only [toSystem, h.name, h.states, h.initial, h.actions, h.transitions, h.propositions]

theorem wellFormed (hst : st.toSystem.WellFormed) : st'.toSystem.WellFormed := by
  rw [h.toSystem_eq]
  refine ⟨hst.initial, hst.source, hst.target, hst.action, fun s q hq => ?_, fun s q hq => ?_⟩
  · exact hst.labelled s q (h.mem_labels_iff.mp hq).2
  · obtain ⟨hne, hq⟩ := h.mem_labels_iff.mp hq
    exact FinSet.mem_erase.mpr ⟨hne, hst.proposition s q hq⟩

theorem alikeTo (hst : st.toSystem.WellFormed) {aut : BuchiAutomaton Q P}
    (haut : aut.Ignores st.propositions p) :
    TransitionSystem.AlikeTo aut st.toSystem st'.toSystem where
  initial := h.initial
  actions := h.actions
  transitions := h.transitions
  next q s := by
    rw [h.labelOf_eq]
    exact haut q _ fun r hr => hst.proposition s r (TransitionSystem.mem_labelOf.mp hr)

end Drops

/-- A proposition that the automaton ignores can be hidden, and that shows neither in the product
nor in the verdict. In whatever orders the product is searched before and after, the verdicts agree,
with stems of the same length. -/
theorem verify_hide {cs : List (Change S A P)} {aut : BuchiAutomaton Q P} {order : List S}
    (haut : aut.Built) (hignores : aut.Ignores (ofChanges cs).propositions p)
    (horder : ∀ s, s ∈ (ofChanges cs).states → s ∈ order) :
    ∃ st, hide order p (ofChanges cs) = .ok () st ∧ (ofChanges cs).Drops p st ∧
      ∃ prod v,
        (ofChanges cs).toSystem.product aut = .ok prod ∧ st.toSystem.product aut = .ok prod ∧
        (ofChanges cs).toSystem.verify aut = .ok v ∧ st.toSystem.verify aut = .ok v ∧
        ∀ next sources next' sources', prod.Lists next sources → prod.Lists next' sources' →
          (Verdict.search aut prod.states.size next sources).Agrees
            (Verdict.search aut prod.states.size next' sources') := by
  have hwell : (ofChanges cs).toSystem.WellFormed := by
    rw [toSystem_ofChanges]
    exact TransitionSystem.Built.wellFormed ⟨cs, rfl⟩
  obtain ⟨st, hhide, hdrops⟩ := exists_hide_eq_ok (inStep_ofChanges cs) (p := p) horder
  obtain ⟨prod, hprod, hp⟩ := TransitionSystem.exists_isProduct hwell haut.wellFormed
  have hprod' : st.toSystem.product aut = .ok prod := by
    rw [(hdrops.alikeTo hwell hignores).product_eq hwell (hdrops.wellFormed hwell) haut.wellFormed]
    exact hprod
  exact ⟨st, hhide, hdrops, prod, _, hprod, hprod', TransitionSystem.verify_eq hprod,
    TransitionSystem.verify_eq hprod', fun _ _ _ _ => hp.search_agrees⟩

/-- Changes that make a latch which also tells, by proposition 1, whether it has moved. -/
def watchedLatch : List (Change Nat Nat Nat) :=
  [.addStates [0, 1], .addAction 0, .addPropositions [0, 1], .addInitial 0, .addTransition ⟨0, 0, 1⟩,
    .addTransition ⟨1, 0, 1⟩, .addLabel 0 1, .addLabel 1 0, .addLabel 1 1]

/-- Accepts the words in which proposition 0 holds from some point on, whatever proposition 1 does. -/
def finallyHoldsUnwatched : BuchiAutomaton Nat Nat :=
  .ofChanges ([.setInitial 0, .setAccepting 1] ++
    [∅, FinSet.ofList [1]].map (.addTransition 0 · 0) ++
    [FinSet.ofList [0], FinSet.ofList [0, 1]].flatMap
      fun label => [.addTransition 0 label 1, .addTransition 1 label 1])

/-- The hidden proposition shows in no order of the search either, here the order turned round. -/
theorem verify_hide_watchedLatch :
    finallyHoldsUnwatched.Ignores (ofChanges watchedLatch).propositions 1 ∧
      ∃ st, hide [1, 0] 1 (ofChanges watchedLatch) = .ok () st ∧ (ofChanges watchedLatch).Drops 1 st ∧
        (ofChanges watchedLatch).toSystem.verify finallyHoldsUnwatched =
          .ok (.violated ⟨[0, 1], [1]⟩) ∧
        st.toSystem.verify finallyHoldsUnwatched = .ok (.violated ⟨[0, 1], [1]⟩) ∧
        ∃ prod, st.toSystem.product finallyHoldsUnwatched = .ok prod ∧
          (Verdict.search finallyHoldsUnwatched prod.states.size
            (fun x => (prod.successors x).reverse) prod.initial.toList.reverse).Agrees
              (.violated ⟨[0, 1], [1]⟩) := by
  have haut : finallyHoldsUnwatched.Built := ⟨_, rfl⟩
  have hignores : finallyHoldsUnwatched.Ignores (ofChanges watchedLatch).propositions 1 :=
    BuchiAutomaton.ignores_of_transitions (by decide)
  have hlisted : ∀ s ∈ (ofChanges watchedLatch).states.toList, s ∈ [1, 0] := by decide
  obtain ⟨st, hhide, hdrops, prod, v, _, hprod, hv, hv', hagrees⟩ :=
    verify_hide haut hignores fun s hs => hlisted s (FinSet.mem_toList.mpr hs)
  have hverdict : (ofChanges watchedLatch).toSystem.verify finallyHoldsUnwatched =
      .ok (.violated ⟨[0, 1], [1]⟩) := rfl
  rw [hverdict] at hv
  cases hv
  have hlists := prod.lists_successors
  have hreversed : prod.Lists (fun x => (prod.successors x).reverse) prod.initial.toList.reverse :=
    ⟨fun s t => List.mem_reverse.trans (hlists.mem_next s t),
      fun s => List.mem_reverse.trans (hlists.mem_sources s)⟩
  have hsearch := TransitionSystem.verify_eq hprod
  rw [hv'] at hsearch
  refine ⟨hignores, st, hhide, hdrops, hverdict, hv', prod, hprod, ?_⟩
  rw [Except.ok.inj hsearch]
  exact hagrees _ _ _ _ hreversed hlists

end TransitionStore

end OmegaCheck
