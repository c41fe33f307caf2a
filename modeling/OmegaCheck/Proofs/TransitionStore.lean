import OmegaCheck.Proofs.Store
import OmegaCheck.TransitionSystem.Store
import Mathlib.Logic.Basic

/-!
# Stores stay consistent

Whatever edits a store has been through, refused ones among them, its tables tell the same as its
sets: a step is in the table of its source exactly when it is in the table of its target and in the
set of transitions. Along the way a store answers every edit as the system that it holds answers the
change, so the systems that stores hold are those that are built by changes.
-/

namespace OmegaCheck

namespace TransitionSystem

variable {S A P : Type} [Element S] [Element A] [Element P]

theorem addActions_eq (ts : TransitionSystem S A P) (l : List A) :
    ts.addActions l = { ts with actions := ts.actions.insertAll l } := by
  induction l generalizing ts with
  | nil => rfl
  | cons a l ih => exact ih (ts.addAction a)

theorem addPropositions_eq (ts : TransitionSystem S A P) (l : List P) :
    ts.addPropositions l = { ts with propositions := ts.propositions.insertAll l } := by
  induction l generalizing ts with
  | nil => rfl
  | cons p l ih => exact ih (ts.addProposition p)

end TransitionSystem

theorem FinSet.isEmpty_eq_false_iff {α : Type} [Element α] {s : FinSet α} :
    s.isEmpty = false ↔ ∃ a, a ∈ s := by
  rw [isEmpty, List.isEmpty_eq_false_iff_exists_mem]
  exact exists_congr fun a => mem_toList

theorem FinSet.isEmpty_iff {α : Type} [Element α] {s : FinSet α} :
    s.isEmpty = true ↔ ∀ a, a ∉ s := by
  rw [← not_exists, ← isEmpty_eq_false_iff, Bool.not_eq_false]

namespace TransitionStore

open TransitionSystem (Change Error)

variable {S A P : Type} [Element S] [Element A] [Element P]

def edit : Change S A P → Edit S A P
  | .setName name => setName name
  | .addState s => addState s
  | .addStates l => addStates l
  | .removeState s => removeState s
  | .addInitial s => addInitial s
  | .removeInitial s => removeInitial s
  | .addAction a => addAction a
  | .addActions l => addActions l
  | .removeAction a => removeAction a
  | .addProposition p => addProposition p
  | .addPropositions l => addPropositions l
  | .removeProposition p => removeProposition p
  | .addTransition t => addTransition t
  | .removeTransition t => removeTransition t
  | .addLabel s p => addLabel s p
  | .removeLabel s p => removeLabel s p

/-- The store as an edit leaves it, be it refused or not. -/
def edited (st : TransitionStore S A P) (c : Change S A P) : TransitionStore S A P :=
  match edit c st with
  | .ok _ st' => st'
  | .error _ st' => st'

def ofChanges (cs : List (Change S A P)) : TransitionStore S A P := cs.foldl edited empty

structure InStep (st : TransitionStore S A P) : Prop where
  labelled : ∀ s, (∃ label, st.labeling.get? s = some label) ↔ s ∈ st.states
  successors : ∀ s a t, (a, t) ∈ st.successors.members s ↔ ⟨s, a, t⟩ ∈ st.transitions
  predecessors : ∀ s a t, (a, s) ∈ st.predecessors.members t ↔ ⟨s, a, t⟩ ∈ st.transitions

/-- The outcome of an edit of `st`, beside the outcome of the same change to the system it holds. -/
inductive Follows (st : TransitionStore S A P) :
    EStateM.Result (Error S A P) (TransitionStore S A P) Unit →
      Except (Error S A P) (TransitionSystem S A P) → Prop
  | done {st' : TransitionStore S A P} (h : st'.InStep) :
      Follows st (.ok () st') (.ok st'.toSystem)
  | refused (e : Error S A P) : Follows st (.error e st) (.error e)

variable {st st' : TransitionStore S A P}

theorem mem_labels {s : S} {p : P} : (s, p) ∈ st.labels ↔ p ∈ st.labeling.members s := by
  simp only [labels, FinSet.mem_ofList, List.mem_flatMap, List.mem_map, FinSet.mem_toList,
    Prod.exists, FinMap.mem_toList, Prod.mk.injEq, FinMap.mem_members]
  constructor
  · rintro ⟨_, label, hlabel, _, hp, rfl, rfl⟩
    exact ⟨label, hlabel, hp⟩
  · rintro ⟨label, hlabel, hp⟩
    exact ⟨s, label, hlabel, p, hp, rfl, rfl⟩

theorem labels_eq {labels : FinSet (S × P)}
    (h : ∀ s p, p ∈ st.labeling.members s ↔ (s, p) ∈ labels) : st.labels = labels := by
  refine FinSet.ext ?_
  rintro ⟨s, p⟩
  rw [mem_labels, h]

namespace InStep

theorem empty : (empty : TransitionStore S A P).InStep := by
  constructor <;> simp [TransitionStore.empty, FinMap.members]

/-- A step in one of the tables is a transition with the state at one of its ends. -/
theorem exists_step_iff (h : st.InStep) {s : S} :
    ((∃ x, x ∈ st.successors.members s) ∨ ∃ x, x ∈ st.predecessors.members s) ↔
      ∃ t, t ∈ st.transitions ∧ (t.source = s ∨ t.target = s) := by
  constructor
  · rintro (⟨⟨a, t⟩, hx⟩ | ⟨⟨a, r⟩, hx⟩)
    · exact ⟨_, (h.successors s a t).mp hx, .inl rfl⟩
    · exact ⟨_, (h.predecessors r a s).mp hx, .inr rfl⟩
  · rintro ⟨⟨r, a, t⟩, ht, rfl | rfl⟩
    · exact .inl ⟨_, (h.successors r a t).mpr ht⟩
    · exact .inr ⟨_, (h.predecessors r a t).mpr ht⟩

end InStep

theorem toSystem_eq {labels : FinSet (S × P)} (h : st.labels = labels) :
    st.toSystem = { st.toSystem with labels := labels } := by
  rw [← h]
  rfl

namespace Follows

theorem of_eq {ts : TransitionSystem S A P} (h : st'.InStep) (heq : st'.toSystem = ts) :
    Follows st (.ok () st') (.ok ts) := by
  rw [← heq]
  exact .done h

/-- An edit that starts with a check follows a change that starts with the same check. -/
theorem guard {c d : Prop} [Decidable c] [Decidable d] {e : Error S A P} {rest : Edit S A P}
    {next : Except (Error S A P) (TransitionSystem S A P)} (hcd : c ↔ d)
    (h : ¬ c → Follows st (rest st) next) :
    Follows st ((if c then throw e else rest : Edit S A P) st) (if d then .error e else next) := by
  by_cases hc : c
  · rw [if_pos hc, if_pos (hcd.mp hc)]
    exact .refused e
  · rw [if_neg hc, if_neg fun hd => hc (hcd.mpr hd)]
    exact h hc

theorem exists_error_iff {r : EStateM.Result (Error S A P) (TransitionStore S A P) Unit}
    {x : Except (Error S A P) (TransitionSystem S A P)} (h : Follows st r x) :
    (∃ e st', r = .error e st') ↔ ∃ e, x = .error e := by
  cases h <;> simp

theorem eq_of_error {e : Error S A P} {x : Except (Error S A P) (TransitionSystem S A P)}
    (h : Follows st (.error e st') x) : st' = st := by
  cases h
  rfl

end Follows

def withState (st : TransitionStore S A P) (s : S) : TransitionStore S A P :=
  { st with
    labeling := st.labeling.alter s fun label => some (label.getD ∅)
    states := st.states.insert s }

theorem toSystem_withState (st : TransitionStore S A P) (s : S) :
    (st.withState s).toSystem = st.toSystem.addState s := by
  refine toSystem_eq (labels_eq fun r p => ?_)
  change p ∈ (st.labeling.alter s fun label => some (label.getD ∅)).members r ↔ (r, p) ∈ st.labels
  rw [mem_labels, FinMap.members, FinMap.get?_alter]
  by_cases e : r = s <;> simp [e, FinMap.members]

theorem addStates_eq (l : List S) (st : TransitionStore S A P) :
    addStates l st = .ok () (l.foldl withState st) := by
  induction l generalizing st with
  | nil => rfl
  | cons s l ih => exact ih (st.withState s)

theorem toSystem_foldl_withState (l : List S) (st : TransitionStore S A P) :
    (l.foldl withState st).toSystem = st.toSystem.addStates l := by
  induction l generalizing st with
  | nil => rfl
  | cons s l ih =>
    rw [List.foldl_cons, ih, toSystem_withState]
    rfl

/-! One lemma for each kind of edit that reads or writes a table. -/

namespace InStep

theorem withState (h : st.InStep) (s : S) : (st.withState s).InStep := by
  refine ⟨fun r => ?_, h.successors, h.predecessors⟩
  rw [TransitionStore.withState, FinMap.get?_alter, FinSet.mem_insert, ← h.labelled]
  by_cases e : r = s <;> simp [e]

theorem foldl_withState (h : st.InStep) (l : List S) :
    (l.foldl TransitionStore.withState st).InStep := by
  induction l generalizing st with
  | nil => exact h
  | cons s l ih => exact ih (h.withState s)

theorem removeState (h : st.InStep) (s : S) :
    Follows st (TransitionStore.removeState s st) (st.toSystem.removeState s) := by
  have hlabels : !(st.labeling.members s).isEmpty ↔ st.labels.toList.any fun l => l.1 = s := by
    rw [Bool.not_eq_true', FinSet.isEmpty_eq_false_iff]
    simp only [List.any_eq_true, FinSet.mem_toList, decide_eq_true_eq, Prod.exists, mem_labels]
    constructor
    · rintro ⟨p, hp⟩
      exact ⟨s, p, hp, rfl⟩
    · rintro ⟨_, p, hp, rfl⟩
      exact ⟨p, hp⟩
  have hsteps : (!(st.successors.members s).isEmpty || !(st.predecessors.members s).isEmpty) ↔
      st.transitions.toList.any fun t => t.source = s || t.target = s := by
    rw [Bool.or_eq_true, Bool.not_eq_true', Bool.not_eq_true', FinSet.isEmpty_eq_false_iff,
      FinSet.isEmpty_eq_false_iff, h.exists_step_iff]
    simp only [List.any_eq_true, FinSet.mem_toList, Bool.or_eq_true, decide_eq_true_eq]
  refine .guard Iff.rfl fun _ => .guard Iff.rfl fun _ => .guard hlabels fun hlabel =>
    .guard hsteps fun hstep => ?_
  -- Nothing in the tables mentions the state, so striking it out of them strikes out nothing else.
  rw [hlabels] at hlabel
  rw [hsteps] at hstep
  simp only [List.any_eq_true, FinSet.mem_toList, decide_eq_true_eq, not_exists, not_and]
    at hlabel
  simp only [List.any_eq_true, FinSet.mem_toList, Bool.or_eq_true, decide_eq_true_eq, not_exists,
    not_and, not_or] at hstep
  refine .of_eq ⟨fun r => ?_, fun r a t => ?_, fun r a t => ?_⟩
    (toSystem_eq (labels_eq fun r q => ?_))
  · rw [FinMap.erase, FinMap.get?_alter, FinSet.mem_erase, ← h.labelled]
    by_cases e : r = s <;> simp [e]
  · rw [FinMap.mem_members_erase, h.successors, and_iff_right_iff_imp]
    exact fun ht => (hstep _ ht).1
  · rw [FinMap.mem_members_erase, h.predecessors, and_iff_right_iff_imp]
    exact fun ht => (hstep _ ht).2
  · change q ∈ (st.labeling.erase s).members r ↔ (r, q) ∈ st.labels
    rw [FinMap.mem_members_erase, ← mem_labels, and_iff_right_iff_imp]
    exact fun hq => hlabel _ hq

theorem addInitial (h : st.InStep) (s : S) :
    Follows st (TransitionStore.addInitial s st) (st.toSystem.addInitial s) := by
  rw [TransitionSystem.addInitial, ← ite_not]
  exact .guard Iff.rfl fun _ => .done ⟨h.labelled, h.successors, h.predecessors⟩

theorem removeAction (h : st.InStep) (a : A) :
    Follows st (TransitionStore.removeAction a st) (st.toSystem.removeAction a) :=
  .guard Iff.rfl fun _ => .done ⟨h.labelled, h.successors, h.predecessors⟩

theorem removeProposition (h : st.InStep) (p : P) :
    Follows st (TransitionStore.removeProposition p st) (st.toSystem.removeProposition p) := by
  have hlabels : (st.labeling.toList.any fun l => l.2.contains p) ↔
      st.labels.toList.any fun l => l.2 = p := by
    simp only [List.any_eq_true, FinSet.mem_toList, decide_eq_true_eq, Prod.exists, mem_labels,
      FinMap.mem_toList, FinMap.mem_members, FinSet.contains_eq_true]
    constructor
    · rintro ⟨s, label, hlabel, hp⟩
      exact ⟨s, p, ⟨label, hlabel, hp⟩, rfl⟩
    · rintro ⟨s, _, ⟨label, hlabel, hp⟩, rfl⟩
      exact ⟨s, label, hlabel, hp⟩
  exact .guard hlabels fun _ => .done ⟨h.labelled, h.successors, h.predecessors⟩

theorem addTransition (h : st.InStep) (t : Transition S A) :
    Follows st (TransitionStore.addTransition t st) (st.toSystem.addTransition t) := by
  rw [TransitionSystem.addTransition, ← ite_not]
  refine .guard (c := t.source ∉ st.states ∨ t.target ∉ st.states ∨ t.action ∉ st.actions)
    (by rw [not_and_or, not_and_or]; rfl) fun _ => ?_
  obtain ⟨r, a, u⟩ := t
  refine .done ⟨h.labelled, fun s b v => ?_, fun s b v => ?_⟩
  · rw [FinMap.mem_members_addMember, FinSet.mem_insert, h.successors]
    simp
  · rw [FinMap.mem_members_addMember, FinSet.mem_insert, h.predecessors]
    simp [and_comm, and_left_comm]

theorem removeTransition (h : st.InStep) (t : Transition S A) :
    Follows st (TransitionStore.removeTransition t st) (.ok (st.toSystem.removeTransition t)) := by
  change Follows st (.ok () (if t ∈ st.transitions then _ else st)) _
  by_cases ht : t ∈ st.transitions
  · rw [if_pos ht]
    obtain ⟨r, a, u⟩ := t
    refine .done ⟨h.labelled, fun s b v => ?_, fun s b v => ?_⟩
    · rw [FinMap.mem_members_removeMember, FinSet.mem_erase, h.successors]
      simp
    · rw [FinMap.mem_members_removeMember, FinSet.mem_erase, h.predecessors]
      simp [and_comm, and_left_comm]
  · have herase : st.toSystem.transitions.erase t = st.toSystem.transitions :=
      FinSet.ext fun u => by
        rw [FinSet.mem_erase, and_iff_right_iff_imp]
        rintro hu rfl
        exact ht hu
    rw [if_neg ht, TransitionSystem.removeTransition, herase]
    exact .done h

theorem addLabel (h : st.InStep) (s : S) (p : P) :
    Follows st (TransitionStore.addLabel s p st) (st.toSystem.addLabel s p) := by
  rw [TransitionSystem.addLabel, ite_and, ← ite_not]
  refine .guard Iff.rfl fun _ => ?_
  have hlabelled : _ ↔ s ∈ st.toSystem.states := h.labelled s
  cases hs : st.labeling.get? s with
  | none =>
    rw [if_neg fun hmem => by simpa [hs] using hlabelled.mpr hmem]
    exact .refused _
  | some label =>
    rw [if_pos (hlabelled.mp ⟨label, hs⟩)]
    refine .of_eq ⟨fun r => ?_, h.successors, h.predecessors⟩
      (toSystem_eq (labels_eq fun r q => ?_))
    · rw [← h.labelled, FinMap.addMember, FinMap.get?_alter]
      by_cases e : r = s
      · simp [e, hs]
      · rw [if_neg e]
    · change q ∈ (st.labeling.addMember s p).members r ↔ (r, q) ∈ st.labels.insert (s, p)
      rw [FinMap.mem_members_addMember, FinSet.mem_insert, mem_labels, Prod.mk.injEq]

theorem removeLabel (h : st.InStep) (s : S) (p : P) :
    Follows st (TransitionStore.removeLabel s p st) (.ok (st.toSystem.removeLabel s p)) := by
  have h' : InStep { st with labeling := st.labeling.removeMember s p } := by
    refine ⟨fun r => ?_, h.successors, h.predecessors⟩
    rw [← h.labelled, FinMap.removeMember, FinMap.get?_alter]
    by_cases e : r = s
    · cases hs : st.labeling.get? s <;> simp [e, hs]
    · rw [if_neg e]
  refine .of_eq h' (toSystem_eq (labels_eq fun r q => ?_))
  change q ∈ (st.labeling.removeMember s p).members r ↔ (r, q) ∈ st.labels.erase (s, p)
  rw [FinMap.mem_members_removeMember, FinSet.mem_erase, mem_labels, ne_eq, Prod.mk.injEq]

/-- A store answers every edit as the system it holds answers the change. -/
theorem edit (h : st.InStep) (c : Change S A P) :
    Follows st (edit c st) (st.toSystem.change c) := by
  cases c with
  | addState s =>
    exact .of_eq (h.withState s) (toSystem_withState st s)
  | addStates l =>
    rw [TransitionStore.edit, addStates_eq]
    exact .of_eq (h.foldl_withState l) (toSystem_foldl_withState l st)
  | removeState s => exact h.removeState s
  | addInitial s => exact h.addInitial s
  | addActions l =>
    have h' : InStep { st with actions := st.actions.insertAll l } :=
      ⟨h.labelled, h.successors, h.predecessors⟩
    exact .of_eq h' (st.toSystem.addActions_eq l).symm
  | removeAction a => exact h.removeAction a
  | addPropositions l =>
    have h' : InStep { st with propositions := st.propositions.insertAll l } :=
      ⟨h.labelled, h.successors, h.predecessors⟩
    exact .of_eq h' (st.toSystem.addPropositions_eq l).symm
  | removeProposition p => exact h.removeProposition p
  | addTransition t => exact h.addTransition t
  | removeTransition t => exact h.removeTransition t
  | addLabel s p => exact h.addLabel s p
  | removeLabel s p => exact h.removeLabel s p
  | setName | removeInitial | addAction | addProposition =>
    exact .done ⟨h.labelled, h.successors, h.predecessors⟩

end InStep

theorem edited_spec (h : st.InStep) (c : Change S A P) :
    (st.edited c).InStep ∧ (st.edited c).toSystem = st.toSystem.changed c := by
  have hedit := h.edit c
  rw [edited, TransitionSystem.changed]
  generalize edit c st = r at hedit ⊢
  generalize st.toSystem.change c = x at hedit ⊢
  cases hedit with
  | done h' => exact ⟨h', rfl⟩
  | refused e => exact ⟨h, rfl⟩

theorem foldl_edited_spec (h : st.InStep) (cs : List (Change S A P)) :
    (cs.foldl edited st).InStep ∧
      (cs.foldl edited st).toSystem = cs.foldl TransitionSystem.changed st.toSystem := by
  induction cs generalizing st with
  | nil => exact ⟨h, rfl⟩
  | cons c cs ih =>
    obtain ⟨h', heq⟩ := edited_spec h c
    rw [List.foldl_cons, List.foldl_cons, ← heq]
    exact ih h'

theorem inStep_ofChanges (cs : List (Change S A P)) : (ofChanges cs).InStep :=
  (foldl_edited_spec .empty cs).1

theorem toSystem_ofChanges (cs : List (Change S A P)) :
    (ofChanges cs).toSystem = TransitionSystem.ofChanges cs :=
  (foldl_edited_spec .empty cs).2

/-- The tables tell the same as the sets, and nothing refers to what is not there. -/
structure Consistent (st : TransitionStore S A P) : Prop extends InStep st where
  initial : ∀ s, s ∈ st.initial → s ∈ st.states
  source : ∀ t, t ∈ st.transitions → t.source ∈ st.states
  target : ∀ t, t ∈ st.transitions → t.target ∈ st.states
  action : ∀ t, t ∈ st.transitions → t.action ∈ st.actions
  proposition : ∀ s label, st.labeling.get? s = some label → ∀ p, p ∈ label → p ∈ st.propositions

theorem consistent_ofChanges (cs : List (Change S A P)) : (ofChanges cs).Consistent := by
  have h : (ofChanges cs).toSystem.WellFormed := by
    rw [toSystem_ofChanges]
    exact TransitionSystem.Built.wellFormed ⟨cs, rfl⟩
  refine ⟨inStep_ofChanges cs, h.initial, h.source, h.target, h.action, fun s label hs p hp => ?_⟩
  exact h.proposition s p (mem_labels.mpr (FinMap.mem_members.mpr ⟨label, hs, hp⟩))

/-- A change that takes away what is referred to, or that refers to what is not there. -/
def Refused (st : TransitionStore S A P) : Change S A P → Prop
  | .removeState s =>
    s ∉ st.states ∨ s ∈ st.initial ∨ (∃ p, p ∈ st.labeling.members s) ∨
      ∃ t, t ∈ st.transitions ∧ (t.source = s ∨ t.target = s)
  | .removeAction a => ∃ t, t ∈ st.transitions ∧ t.action = a
  | .removeProposition p => ∃ s, p ∈ st.labeling.members s
  | .addInitial s => s ∉ st.states
  | .addTransition t => t.source ∉ st.states ∨ t.target ∉ st.states ∨ t.action ∉ st.actions
  | .addLabel s p => s ∉ st.states ∨ p ∉ st.propositions
  | _ => False

theorem exists_ite_error_iff {α ε : Type} {c : Prop} [Decidable c] {e : ε} {x : Except ε α} :
    (∃ e', (if c then .error e else x) = .error e') ↔ c ∨ ∃ e', x = .error e' := by
  split <;> simp [*]

theorem exists_error_change_iff (st : TransitionStore S A P) (c : Change S A P) :
    (∃ e, st.toSystem.change c = .error e) ↔ st.Refused c := by
  cases c with
  | removeState s =>
    rw [TransitionSystem.change, TransitionSystem.removeState, exists_ite_error_iff,
      exists_ite_error_iff, exists_ite_error_iff, exists_ite_error_iff]
    simp [toSystem, mem_labels, Refused]
  | removeAction a =>
    rw [TransitionSystem.change, TransitionSystem.removeAction, exists_ite_error_iff]
    simp [toSystem, Refused]
  | removeProposition p =>
    rw [TransitionSystem.change, TransitionSystem.removeProposition, exists_ite_error_iff]
    simp [toSystem, mem_labels, Refused]
  | addInitial s =>
    rw [TransitionSystem.change, TransitionSystem.addInitial, ← ite_not, exists_ite_error_iff]
    simp [toSystem, Refused]
  | addTransition t =>
    rw [TransitionSystem.change, TransitionSystem.addTransition, ← ite_not, exists_ite_error_iff,
      not_and_or, not_and_or]
    simp [toSystem, Refused]
  | addLabel s p =>
    rw [TransitionSystem.change, TransitionSystem.addLabel, ← ite_not, exists_ite_error_iff,
      not_and_or, or_comm (a := ¬ _)]
    simp [toSystem, Refused]
  | _ => simp [TransitionSystem.change, Refused]

theorem ofChanges_consistent_and_atomic (cs : List (Change S A P)) :
    (ofChanges cs).Consistent ∧ (ofChanges cs).toSystem = TransitionSystem.ofChanges cs ∧
      ∀ c, ((∃ e st, edit c (ofChanges cs) = .error e st) ↔ (ofChanges cs).Refused c) ∧
        ∀ e st, edit c (ofChanges cs) = .error e st → st = ofChanges cs := by
  refine ⟨consistent_ofChanges cs, toSystem_ofChanges cs, fun c => ⟨?_, fun e st he => ?_⟩⟩
  · rw [((inStep_ofChanges cs).edit c).exists_error_iff, exists_error_change_iff]
  · have h := (inStep_ofChanges cs).edit c
    rw [he] at h
    exact h.eq_of_error

end TransitionStore

end OmegaCheck
