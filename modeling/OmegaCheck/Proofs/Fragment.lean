import OmegaCheck.Proofs.StoreQuery
import OmegaCheck.TransitionSystem.Execution

/-!
# Tests of fragments

A fragment is tested step by step, and the test ends at the first step that is no transition. Hence
an unknown state or action is reported only if no step before it is missing. Where nothing is
reported, the four tests say whether all steps are transitions, whether the first state is initial
and whether the last one is terminal.
-/

namespace OmegaCheck

namespace Fragment

variable {S A : Type}

def transitionsFrom (s : S) : List (A × S) → List (Transition S A)
  | [] => []
  | (a, t) :: rest => ⟨s, a, t⟩ :: transitionsFrom t rest

/-- The steps of a fragment. -/
def transitions (e : Fragment S A) : List (Transition S A) := transitionsFrom e.head e.steps

theorem last_cons (s t : S) (a : A) (rest : List (A × S)) :
    (⟨s, (a, t) :: rest⟩ : Fragment S A).last = (⟨t, rest⟩ : Fragment S A).last := by
  cases h : rest.getLast? with
  | none => simp [last, List.getLast?_cons, h]
  | some u => simp [last, List.getLast?_cons, h]

end Fragment

namespace Answers

variable {ε : Type} {r q : Except ε Bool} {known p p' : Prop}

/-- A second test that is made only if the first one succeeds, and then gives an answer. -/
theorem both (h : Answers r known fun b => b = true ↔ p)
    (k : known → p → Answers q True fun b => b = true ↔ p') :
    Answers (do if ← r then q else return false) known fun b => b = true ↔ p ∧ p' := by
  cases r with
  | error e => exact error e fun hknown => by simpa using h.ok_iff.mpr hknown
  | ok b =>
    have hknown : known := h.ok_iff.mp ⟨b, rfl⟩
    have hb := h.right b rfl
    cases b with
    | false =>
      have hp : ¬ p := fun hp => by simpa using hb.mpr hp
      exact (pure (by simp [hp])).congr (by simp [hknown]) fun _ => id
    | true =>
      have hp : p := hb.mp rfl
      refine (k hknown hp).congr (by simp [hknown]) fun b hq => ?_
      rw [hq, and_iff_right hp]

theorem eq_false (h : Answers r known fun b => b = true ↔ p) (hknown : known) (hp : ¬ p) :
    r = .ok false := by
  obtain ⟨b, hb⟩ := h.ok_iff.mpr hknown
  rw [hb, Bool.eq_false_iff.mpr fun htrue => hp ((h.right b hb).mp htrue)]

end Answers

namespace TransitionStore

open TransitionSystem (Change)

variable {S A P : Type} [Element S] [Element A] [Element P] {st : TransitionStore S A P}
variable {s t : S} {a : A} {steps rest : List (A × S)} {e : Fragment S A}

/-- All states and actions of the fragment are registered. -/
structure Registers (st : TransitionStore S A P) (e : Fragment S A) : Prop where
  states : ∀ s ∈ e.states, s ∈ st.states
  actions : ∀ a ∈ e.actions, a ∈ st.actions

def Runs (st : TransitionStore S A P) (e : Fragment S A) : Prop :=
  ∀ t ∈ e.transitions, t ∈ st.transitions

/-- After a first part that follows transitions there is a step to an unknown state or by an unknown
action. -/
def MeetsUnknownAfter (st : TransitionStore S A P) (s : S) (steps : List (A × S)) : Prop :=
  ∃ before a t after, steps = before ++ (a, t) :: after ∧ st.Runs ⟨s, before⟩ ∧
    (a ∉ st.actions ∨ t ∉ st.states)

/-- An unknown state or action comes in a fragment before any step is missing. -/
def MeetsUnknown (st : TransitionStore S A P) (e : Fragment S A) : Prop :=
  e.head ∉ st.states ∨ st.MeetsUnknownAfter e.head e.steps

theorem runs_cons :
    st.Runs ⟨s, (a, t) :: rest⟩ ↔ ⟨s, a, t⟩ ∈ st.transitions ∧ st.Runs ⟨t, rest⟩ :=
  List.forall_mem_cons

theorem meetsUnknownAfter_nil : ¬ st.MeetsUnknownAfter s [] := by
  rintro ⟨before, a, t, after, heq, _⟩
  simp at heq

theorem meetsUnknownAfter_cons :
    st.MeetsUnknownAfter s ((a, t) :: rest) ↔ (a ∉ st.actions ∨ t ∉ st.states) ∨
      ⟨s, a, t⟩ ∈ st.transitions ∧ st.MeetsUnknownAfter t rest := by
  constructor
  · rintro ⟨before, b, u, after, heq, hruns, hunknown⟩
    cases before with
    | nil =>
      cases heq
      exact .inl hunknown
    | cons x before =>
      cases heq
      obtain ⟨hstep, hruns⟩ := runs_cons.mp hruns
      exact .inr ⟨hstep, before, b, u, after, rfl, hruns, hunknown⟩
  · rintro (hunknown | ⟨hstep, before, b, u, after, rfl, hruns, hunknown⟩)
    · refine ⟨[], a, t, rest, rfl, ?_, hunknown⟩
      intro x hx
      cases hx
    · exact ⟨(a, t) :: before, b, u, after, rfl, runs_cons.mpr ⟨hstep, hruns⟩, hunknown⟩

theorem InStep.answers_followsFrom (h : st.InStep) (s : S) (steps : List (A × S)) :
    Answers (st.followsFrom s steps) (¬ st.MeetsUnknownAfter s steps)
      fun b => b = true ↔ st.Runs ⟨s, steps⟩ := by
  induction steps generalizing s with
  | nil =>
    refine (Answers.pure ?_).congr (by simp [meetsUnknownAfter_nil]) fun _ => id
    simp [Runs, Fragment.transitions, Fragment.transitionsFrom]
  | cons x rest ih =>
    obtain ⟨a, t⟩ := x
    have hout : (a, t) ∈ st.outgoing s ↔ ⟨s, a, t⟩ ∈ st.transitions := h.successors s a t
    rw [meetsUnknownAfter_cons, followsFrom]
    by_cases hstep : ⟨s, a, t⟩ ∈ st.transitions
    · rw [if_pos (hout.mpr hstep)]
      refine (ih t).checked.checked.congr ?_ fun b hb => ?_
      · simp only [hstep, not_or, Decidable.not_not, true_and, and_assoc]
      · rw [hb, runs_cons, and_iff_right hstep]
    · rw [if_neg fun hmem => hstep (hout.mp hmem)]
      refine (Answers.pure ?_).checked.checked.congr ?_ fun _ => id
      · simp [runs_cons, hstep]
      · simp only [hstep, not_or, Decidable.not_not, false_and, not_false_eq_true, and_true]

theorem Consistent.mem_states_of_runs (h : st.Consistent) (hs : s ∈ st.states)
    (hruns : st.Runs ⟨s, steps⟩) : (⟨s, steps⟩ : Fragment S A).last ∈ st.states := by
  induction steps generalizing s with
  | nil => exact hs
  | cons x rest ih =>
    obtain ⟨a, t⟩ := x
    obtain ⟨hstep, hruns⟩ := runs_cons.mp hruns
    rw [Fragment.last_cons]
    exact ih (h.target _ hstep) hruns

theorem Consistent.registers_of_runs (h : st.Consistent) (hs : s ∈ st.states)
    (hruns : st.Runs ⟨s, steps⟩) : st.Registers ⟨s, steps⟩ := by
  induction steps generalizing s with
  | nil => exact ⟨by simpa [Fragment.states] using hs, by simp [Fragment.actions]⟩
  | cons x rest ih =>
    obtain ⟨a, t⟩ := x
    obtain ⟨hstep, hruns⟩ := runs_cons.mp hruns
    obtain ⟨hstates, hactions⟩ := ih (h.target _ hstep) hruns
    constructor
    · exact List.forall_mem_cons.mpr ⟨hs, hstates⟩
    · exact List.forall_mem_cons.mpr ⟨h.action _ hstep, hactions⟩

theorem MeetsUnknown.not_registers (h : st.MeetsUnknown e) : ¬ st.Registers e := by
  rintro ⟨hstates, hactions⟩
  rcases h with hhead | ⟨before, a, t, after, hsteps, _, ha | ht⟩
  · exact hhead (hstates _ (List.mem_cons_self))
  · apply ha
    apply hactions
    simp [Fragment.actions, hsteps]
  · apply ht
    apply hstates
    simp [Fragment.states, hsteps]

theorem head_mem_states (h : ¬ st.MeetsUnknown e) : e.head ∈ st.states := by
  by_contra hhead
  exact h (.inl hhead)

/-- What the four tests say of a fragment. -/
structure TestsFragment (st : TransitionStore S A P) (e : Fragment S A) : Prop where
  isFragment : Answers (st.isFragment e) (¬ st.MeetsUnknown e) fun b => b = true ↔ st.Runs e
  isInitialFragment : Answers (st.isInitialFragment e) (¬ st.MeetsUnknown e)
    fun b => b = true ↔ st.Runs e ∧ e.head ∈ st.initial
  isMaximalFragment : Answers (st.isMaximalFragment e) (¬ st.MeetsUnknown e)
    fun b => b = true ↔ st.Runs e ∧ ∀ t, t ∈ st.transitions → t.source ≠ e.last
  isExecution : Answers (st.isExecution e) (¬ st.MeetsUnknown e)
    fun b => b = true ↔ (st.Runs e ∧ e.head ∈ st.initial) ∧
      ∀ t, t ∈ st.transitions → t.source ≠ e.last
  refused : st.MeetsUnknown e → ¬ st.Registers e
  overlooked : ¬ st.Registers e → ¬ st.MeetsUnknown e →
    st.isFragment e = .ok false ∧ st.isInitialFragment e = .ok false ∧
      st.isMaximalFragment e = .ok false ∧ st.isExecution e = .ok false

namespace Consistent

theorem answers_isFragment (h : st.Consistent) (e : Fragment S A) :
    Answers (st.isFragment e) (¬ st.MeetsUnknown e) fun b => b = true ↔ st.Runs e := by
  refine (h.answers_followsFrom e.head e.steps).checked.congr ?_ fun _ => id
  rw [MeetsUnknown, not_or, Decidable.not_not]

/-- The last state of a fragment that follows transitions is known, so that the question whether it
is terminal has an answer. -/
theorem answers_isTerminal_last (h : st.Consistent) (hknown : ¬ st.MeetsUnknown e)
    (hruns : st.Runs e) :
    Answers (st.isTerminal e.last) True
      fun b => b = true ↔ ∀ t, t ∈ st.transitions → t.source ≠ e.last := by
  have hlast := h.mem_states_of_runs (head_mem_states hknown) hruns
  refine (h.tellsTransitions.isTerminal e.last).congr ?_ fun _ => id
  exact iff_of_true hlast trivial

end Consistent

theorem ofChanges_testsFragment (cs : List (Change S A P)) (e : Fragment S A) :
    (ofChanges cs).TestsFragment e := by
  have h := consistent_ofChanges cs
  have hfragment := h.answers_isFragment e
  have hinitial := hfragment.both (q := return decide (e.head ∈ (ofChanges cs).initial))
    fun _ _ => .pure decide_eq_true_iff
  have hmaximal := hfragment.both fun hknown hruns => h.answers_isTerminal_last hknown hruns
  have hexecution := hinitial.both fun hknown hruns =>
    h.answers_isTerminal_last hknown hruns.1
  refine ⟨hfragment, hinitial, hmaximal, hexecution, MeetsUnknown.not_registers, ?_⟩
  intro hregisters hknown
  have hruns : ¬ (ofChanges cs).Runs e := fun hruns =>
    hregisters (h.registers_of_runs (head_mem_states hknown) hruns)
  refine ⟨hfragment.eq_false hknown hruns, hinitial.eq_false hknown ?_,
    hmaximal.eq_false hknown ?_, hexecution.eq_false hknown ?_⟩
  · exact fun hboth => hruns hboth.1
  · exact fun hboth => hruns hboth.1
  · exact fun hboth => hruns hboth.1.1

/-- Two states without a step between them. -/
def apart : TransitionStore Nat Nat Nat := ofChanges [.addStates [0, 1], .addAction 0]

/-- From 0 to 1 and on to a state that is not there. -/
def strayFragment : Fragment Nat Nat := ⟨0, [(0, 1), (0, 2)]⟩

theorem apart_overlooks_strayFragment :
    ¬ apart.Registers strayFragment ∧ apart.isFragment strayFragment = .ok false ∧
      apart.isInitialFragment strayFragment = .ok false ∧
      apart.isMaximalFragment strayFragment = .ok false ∧
      apart.isExecution strayFragment = .ok false := by
  refine ⟨fun h => ?_, rfl, rfl, rfl, rfl⟩
  have hmem : 2 ∈ apart.states := h.states 2 (by decide)
  exact absurd hmem (by decide +kernel)

end TransitionStore

end OmegaCheck
