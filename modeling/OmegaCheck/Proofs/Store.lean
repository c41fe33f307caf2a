import OmegaCheck.Automaton.Basic
import OmegaCheck.TransitionSystem.Basic

/-!
# Systems and automata built by changes

A transition system or an automaton is built from the empty one by any sequence of the changes its
users can ask for; a refused change leaves the system as it is. Whatever the sequence, every
reference stays intact: `TransitionSystem.Built.wellFormed` and `BuchiAutomaton.Built.wellFormed`.
-/

namespace OmegaCheck

namespace TransitionSystem

variable {S A P : Type} [Element S] [Element A] [Element P]

inductive Change (S A P : Type) where
  | setName (name : String)
  | addState (s : S)
  | addStates (l : List S)
  | removeState (s : S)
  | addInitial (s : S)
  | removeInitial (s : S)
  | addAction (a : A)
  | addActions (l : List A)
  | removeAction (a : A)
  | addProposition (p : P)
  | addPropositions (l : List P)
  | removeProposition (p : P)
  | addTransition (t : Transition S A)
  | removeTransition (t : Transition S A)
  | addLabel (s : S) (p : P)
  | removeLabel (s : S) (p : P)

/-- The system after a change, or why the change is refused. -/
def change (ts : TransitionSystem S A P) :
    Change S A P → Except (Error S A P) (TransitionSystem S A P)
  | .setName name => .ok (ts.setName name)
  | .addState s => .ok (ts.addState s)
  | .addStates l => .ok (ts.addStates l)
  | .removeState s => ts.removeState s
  | .addInitial s => ts.addInitial s
  | .removeInitial s => .ok (ts.removeInitial s)
  | .addAction a => .ok (ts.addAction a)
  | .addActions l => .ok (ts.addActions l)
  | .removeAction a => ts.removeAction a
  | .addProposition p => .ok (ts.addProposition p)
  | .addPropositions l => .ok (ts.addPropositions l)
  | .removeProposition p => ts.removeProposition p
  | .addTransition t => ts.addTransition t
  | .removeTransition t => .ok (ts.removeTransition t)
  | .addLabel s p => ts.addLabel s p
  | .removeLabel s p => .ok (ts.removeLabel s p)

def changed (ts : TransitionSystem S A P) (c : Change S A P) : TransitionSystem S A P :=
  (ts.change c).toOption.getD ts

def ofChanges (cs : List (Change S A P)) : TransitionSystem S A P := cs.foldl changed empty

def Built (ts : TransitionSystem S A P) : Prop := ∃ cs, ofChanges cs = ts

/-- Nothing refers to what is not there. -/
structure WellFormed (ts : TransitionSystem S A P) : Prop where
  initial : ∀ s, s ∈ ts.initial → s ∈ ts.states
  source : ∀ t, t ∈ ts.transitions → t.source ∈ ts.states
  target : ∀ t, t ∈ ts.transitions → t.target ∈ ts.states
  action : ∀ t, t ∈ ts.transitions → t.action ∈ ts.actions
  labelled : ∀ s p, (s, p) ∈ ts.labels → s ∈ ts.states
  proposition : ∀ s p, (s, p) ∈ ts.labels → p ∈ ts.propositions

namespace WellFormed

variable {ts ts' : TransitionSystem S A P}

theorem empty : (empty : TransitionSystem S A P).WellFormed := by
  constructor <;> simp [TransitionSystem.empty]

theorem setName (h : ts.WellFormed) (name : String) : (ts.setName name).WellFormed :=
  ⟨h.initial, h.source, h.target, h.action, h.labelled, h.proposition⟩

theorem addState (h : ts.WellFormed) (s : S) : (ts.addState s).WellFormed where
  initial r hr := FinSet.mem_insert.mpr (Or.inr (h.initial r hr))
  source t ht := FinSet.mem_insert.mpr (Or.inr (h.source t ht))
  target t ht := FinSet.mem_insert.mpr (Or.inr (h.target t ht))
  action := h.action
  labelled r p hr := FinSet.mem_insert.mpr (Or.inr (h.labelled r p hr))
  proposition := h.proposition

theorem addAction (h : ts.WellFormed) (a : A) : (ts.addAction a).WellFormed :=
  ⟨h.initial, h.source, h.target, fun t ht => FinSet.mem_insert.mpr (Or.inr (h.action t ht)),
    h.labelled, h.proposition⟩

theorem addProposition (h : ts.WellFormed) (p : P) : (ts.addProposition p).WellFormed :=
  ⟨h.initial, h.source, h.target, h.action, h.labelled,
    fun r q hr => FinSet.mem_insert.mpr (Or.inr (h.proposition r q hr))⟩

/-- A bulk change is as good as the single change it repeats. -/
theorem foldl {α : Type} {f : TransitionSystem S A P → α → TransitionSystem S A P}
    (hf : ∀ ts a, ts.WellFormed → (f ts a).WellFormed) (h : ts.WellFormed) (l : List α) :
    (l.foldl f ts).WellFormed := by
  induction l generalizing ts with
  | nil => exact h
  | cons a l ih => exact ih (hf ts a h)

theorem addInitial (h : ts.WellFormed) {s : S} (he : ts.addInitial s = .ok ts') :
    ts'.WellFormed := by
  rw [TransitionSystem.addInitial] at he
  split at he
  · rename_i hs
    cases he
    refine ⟨fun r hr => ?_, h.source, h.target, h.action, h.labelled, h.proposition⟩
    rcases FinSet.mem_insert.mp hr with rfl | hr
    · exact hs
    · exact h.initial r hr
  · cases he

theorem removeInitial (h : ts.WellFormed) (s : S) : (ts.removeInitial s).WellFormed :=
  ⟨fun r hr => h.initial r (FinSet.mem_erase.mp hr).2, h.source, h.target, h.action, h.labelled,
    h.proposition⟩

theorem addTransition (h : ts.WellFormed) {t : Transition S A}
    (he : ts.addTransition t = .ok ts') : ts'.WellFormed := by
  rw [TransitionSystem.addTransition] at he
  split at he
  · rename_i ht
    obtain ⟨hsource, htarget, haction⟩ := ht
    cases he
    refine ⟨h.initial, fun u hu => ?_, fun u hu => ?_, fun u hu => ?_, h.labelled, h.proposition⟩
      <;> rcases FinSet.mem_insert.mp hu with rfl | hu
    · exact hsource
    · exact h.source u hu
    · exact htarget
    · exact h.target u hu
    · exact haction
    · exact h.action u hu
  · cases he

theorem removeTransition (h : ts.WellFormed) (t : Transition S A) :
    (ts.removeTransition t).WellFormed :=
  ⟨h.initial, fun u hu => h.source u (FinSet.mem_erase.mp hu).2,
    fun u hu => h.target u (FinSet.mem_erase.mp hu).2,
    fun u hu => h.action u (FinSet.mem_erase.mp hu).2, h.labelled, h.proposition⟩

theorem addLabel (h : ts.WellFormed) {s : S} {p : P} (he : ts.addLabel s p = .ok ts') :
    ts'.WellFormed := by
  rw [TransitionSystem.addLabel] at he
  split at he
  · rename_i hsp
    obtain ⟨hp, hs⟩ := hsp
    cases he
    refine ⟨h.initial, h.source, h.target, h.action, fun r q hr => ?_, fun r q hr => ?_⟩
      <;> rcases FinSet.mem_insert.mp hr with hr | hr
    · cases hr
      exact hs
    · exact h.labelled r q hr
    · cases hr
      exact hp
    · exact h.proposition r q hr
  · cases he

theorem removeLabel (h : ts.WellFormed) (s : S) (p : P) : (ts.removeLabel s p).WellFormed :=
  ⟨h.initial, h.source, h.target, h.action,
    fun r q hr => h.labelled r q (FinSet.mem_erase.mp hr).2,
    fun r q hr => h.proposition r q (FinSet.mem_erase.mp hr).2⟩

theorem removeState (h : ts.WellFormed) {s : S} (he : ts.removeState s = .ok ts') :
    ts'.WellFormed := by
  rw [TransitionSystem.removeState] at he
  split at he
  · cases he
  split at he
  · cases he
  rename_i hinitial
  split at he
  · cases he
  rename_i hlabels
  split at he
  · cases he
  rename_i htransitions
  cases he
  simp only [List.any_eq_true, FinSet.mem_toList, decide_eq_true_eq, not_exists, not_and] at hlabels
  simp only [List.any_eq_true, FinSet.mem_toList, Bool.or_eq_true, decide_eq_true_eq, not_exists,
    not_and, not_or] at htransitions
  refine ⟨fun r hr => ?_, fun t ht => ?_, fun t ht => ?_, h.action, fun r p hr => ?_, h.proposition⟩
    <;> rw [FinSet.mem_erase]
  · exact ⟨fun e => hinitial (e ▸ hr), h.initial r hr⟩
  · exact ⟨(htransitions t ht).1, h.source t ht⟩
  · exact ⟨(htransitions t ht).2, h.target t ht⟩
  · exact ⟨hlabels (r, p) hr, h.labelled r p hr⟩

theorem removeAction (h : ts.WellFormed) {a : A} (he : ts.removeAction a = .ok ts') :
    ts'.WellFormed := by
  rw [TransitionSystem.removeAction] at he
  split at he
  · cases he
  rename_i hused
  cases he
  simp only [List.any_eq_true, FinSet.mem_toList, decide_eq_true_eq, not_exists, not_and] at hused
  exact ⟨h.initial, h.source, h.target,
    fun t ht => FinSet.mem_erase.mpr ⟨hused t ht, h.action t ht⟩, h.labelled, h.proposition⟩

theorem removeProposition (h : ts.WellFormed) {p : P} (he : ts.removeProposition p = .ok ts') :
    ts'.WellFormed := by
  rw [TransitionSystem.removeProposition] at he
  split at he
  · cases he
  rename_i hused
  cases he
  simp only [List.any_eq_true, FinSet.mem_toList, decide_eq_true_eq, not_exists, not_and] at hused
  exact ⟨h.initial, h.source, h.target, h.action, h.labelled,
    fun r q hr => FinSet.mem_erase.mpr ⟨hused (r, q) hr, h.proposition r q hr⟩⟩

theorem change (h : ts.WellFormed) {c : Change S A P} (he : ts.change c = .ok ts') :
    ts'.WellFormed := by
  cases c with
  | setName name => cases he; exact h.setName name
  | addState s => cases he; exact h.addState s
  | addStates l => cases he; exact foldl (fun _ s h => h.addState s) h l
  | removeState s => exact h.removeState he
  | addInitial s => exact h.addInitial he
  | removeInitial s => cases he; exact h.removeInitial s
  | addAction a => cases he; exact h.addAction a
  | addActions l => cases he; exact foldl (fun _ a h => h.addAction a) h l
  | removeAction a => exact h.removeAction he
  | addProposition p => cases he; exact h.addProposition p
  | addPropositions l => cases he; exact foldl (fun _ p h => h.addProposition p) h l
  | removeProposition p => exact h.removeProposition he
  | addTransition t => exact h.addTransition he
  | removeTransition t => cases he; exact h.removeTransition t
  | addLabel s p => exact h.addLabel he
  | removeLabel s p => cases he; exact h.removeLabel s p

theorem changed (h : ts.WellFormed) (c : Change S A P) : (ts.changed c).WellFormed := by
  rw [TransitionSystem.changed]
  cases he : ts.change c with
  | ok ts' => exact h.change he
  | error e => exact h

end WellFormed

theorem Built.wellFormed {ts : TransitionSystem S A P} (h : ts.Built) : ts.WellFormed := by
  obtain ⟨cs, rfl⟩ := h
  exact WellFormed.foldl (fun _ c h => h.changed c) .empty cs

end TransitionSystem

namespace BuchiAutomaton

variable {Q P : Type} [Element Q] [Element P]

inductive Change (Q P : Type) [Element P] where
  | addState (q : Q)
  | setInitial (q : Q)
  | setAccepting (q : Q)
  | addTransition (q : Q) (label : FinSet P) (r : Q)

def changed (aut : BuchiAutomaton Q P) : Change Q P → BuchiAutomaton Q P
  | .addState q => aut.addState q
  | .setInitial q => aut.setInitial q
  | .setAccepting q => aut.setAccepting q
  | .addTransition q label r => aut.addTransition q label r

def ofChanges (cs : List (Change Q P)) : BuchiAutomaton Q P := cs.foldl changed {}

def Built (aut : BuchiAutomaton Q P) : Prop := ∃ cs, ofChanges cs = aut

/-- Nothing refers to an automaton state that is not there. -/
structure WellFormed (aut : BuchiAutomaton Q P) : Prop where
  initial : ∀ q, q ∈ aut.initial → q ∈ aut.states
  accepting : ∀ q, q ∈ aut.accepting → q ∈ aut.states
  source : ∀ t, t ∈ aut.transitions → t.1 ∈ aut.states
  target : ∀ t, t ∈ aut.transitions → t.2.2 ∈ aut.states

namespace WellFormed

variable {aut : BuchiAutomaton Q P}

theorem changed (h : aut.WellFormed) (c : Change Q P) : (aut.changed c).WellFormed := by
  have hmem : ∀ q r, r ∈ aut.states → r ∈ aut.states.insert q :=
    fun q r hr => FinSet.mem_insert.mpr (Or.inr hr)
  have hself : ∀ q, q ∈ aut.states.insert q := fun q => FinSet.mem_insert.mpr (Or.inl rfl)
  cases c with
  | addState q =>
    exact ⟨fun r hr => hmem q r (h.initial r hr), fun r hr => hmem q r (h.accepting r hr),
      fun t ht => hmem q _ (h.source t ht), fun t ht => hmem q _ (h.target t ht)⟩
  | setInitial q =>
    refine ⟨fun r hr => ?_, fun r hr => hmem q r (h.accepting r hr),
      fun t ht => hmem q _ (h.source t ht), fun t ht => hmem q _ (h.target t ht)⟩
    rcases FinSet.mem_insert.mp hr with rfl | hr
    · exact hself r
    · exact hmem q r (h.initial r hr)
  | setAccepting q =>
    refine ⟨fun r hr => hmem q r (h.initial r hr), fun r hr => ?_,
      fun t ht => hmem q _ (h.source t ht), fun t ht => hmem q _ (h.target t ht)⟩
    rcases FinSet.mem_insert.mp hr with rfl | hr
    · exact hself r
    · exact hmem q r (h.accepting r hr)
  | addTransition q label r =>
    have hboth : ∀ x, x ∈ aut.states → x ∈ (aut.states.insert q).insert r :=
      fun x hx => FinSet.mem_insert.mpr (Or.inr (hmem q x hx))
    refine ⟨fun x hx => hboth x (h.initial x hx), fun x hx => hboth x (h.accepting x hx),
      fun t ht => ?_, fun t ht => ?_⟩ <;> rcases FinSet.mem_insert.mp ht with rfl | ht
    · exact FinSet.mem_insert.mpr (Or.inr (hself q))
    · exact hboth _ (h.source t ht)
    · exact FinSet.mem_insert.mpr (Or.inl rfl)
    · exact hboth _ (h.target t ht)

end WellFormed

theorem Built.wellFormed {aut : BuchiAutomaton Q P} (h : aut.Built) : aut.WellFormed := by
  obtain ⟨cs, rfl⟩ := h
  have hfold : ∀ (cs : List (Change Q P)) (aut : BuchiAutomaton Q P), aut.WellFormed →
      (cs.foldl BuchiAutomaton.changed aut).WellFormed := by
    intro cs
    induction cs with
    | nil => exact fun _ h => h
    | cons c cs ih => exact fun aut h => ih _ (h.changed c)
  refine hfold cs {} ⟨?_, ?_, ?_, ?_⟩ <;> simp

end BuchiAutomaton

end OmegaCheck
