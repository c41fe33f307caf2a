import OmegaCheck.TransitionSystem.Basic

/-!
# Transition systems under edit

A transition system as it is kept while it is edited: beside the sets there is a table with the label
of every state, and the transitions are kept twice more, by their source and by their target. An edit
works in place. If it is refused, whatever it has written by then stays written, so an edit has to
ask all its questions before it writes.
-/

namespace OmegaCheck

structure TransitionStore (S A P : Type) [Element S] [Element A] [Element P] where
  name : Option String := none
  states : FinSet S := ∅
  initial : FinSet S := ∅
  actions : FinSet A := ∅
  propositions : FinSet P := ∅
  transitions : FinSet (Transition S A) := ∅
  /-- The label of each state; every state has one, be it empty. -/
  labeling : FinMap S (FinSet P) := ∅
  /-- The steps that leave a state, as pairs of an action and a target. -/
  successors : FinMap S (FinSet (A × S)) := ∅
  /-- The steps that enter a state, as pairs of an action and a source. -/
  predecessors : FinMap S (FinSet (A × S)) := ∅

namespace TransitionStore

open TransitionSystem (Error)

variable {S A P : Type} [Element S] [Element A] [Element P]

/-- The store without any part. -/
def empty : TransitionStore S A P := {}

/-- A change in place, which may be refused. -/
abbrev Edit (S A P : Type) [Element S] [Element A] [Element P] : Type :=
  EStateM (Error S A P) (TransitionStore S A P) Unit

def setName (name : String) : Edit S A P :=
  modify fun st => { st with name := some name }

/-- Adds a state; a new one gets an empty label. -/
def addState (s : S) : Edit S A P :=
  modify fun st =>
    { st with
      labeling := st.labeling.alter s fun label => some (label.getD ∅)
      states := st.states.insert s }

def addStates (l : List S) : Edit S A P := l.forM addState

/-- Removes a state that is neither initial, nor labelled, nor an end of a transition. -/
def removeState (s : S) : Edit S A P := do
  let st ← get
  if s ∉ st.states then throw (.unknownState s)
  else if s ∈ st.initial then throw (.stateInUse s .initialStates)
  else if !(st.labeling.members s).isEmpty then throw (.stateInUse s .labeling)
  else if !(st.successors.members s).isEmpty || !(st.predecessors.members s).isEmpty then
    throw (.stateInUse s .transitions)
  else
    set { st with
      states := st.states.erase s
      labeling := st.labeling.erase s
      successors := st.successors.erase s
      predecessors := st.predecessors.erase s }

def addInitial (s : S) : Edit S A P := do
  let st ← get
  if s ∉ st.states then throw (.invalidInitial s)
  else set { st with initial := st.initial.insert s }

def removeInitial (s : S) : Edit S A P :=
  modify fun st => { st with initial := st.initial.erase s }

def addAction (a : A) : Edit S A P :=
  modify fun st => { st with actions := st.actions.insert a }

def addActions (l : List A) : Edit S A P :=
  modify fun st => { st with actions := st.actions.insertAll l }

/-- Removes an action that no transition uses; an unknown action is no error. -/
def removeAction (a : A) : Edit S A P := do
  let st ← get
  if st.transitions.toList.any fun t => t.action = a then throw (.actionInUse a)
  else set { st with actions := st.actions.erase a }

def addProposition (p : P) : Edit S A P :=
  modify fun st => { st with propositions := st.propositions.insert p }

def addPropositions (l : List P) : Edit S A P :=
  modify fun st => { st with propositions := st.propositions.insertAll l }

/-- Removes a proposition that labels no state; an unknown proposition is no error. -/
def removeProposition (p : P) : Edit S A P := do
  let st ← get
  if st.labeling.toList.any fun l => l.2.contains p then throw (.propositionInUse p)
  else set { st with propositions := st.propositions.erase p }

def addTransition (t : Transition S A) : Edit S A P := do
  let st ← get
  if t.source ∉ st.states ∨ t.target ∉ st.states ∨ t.action ∉ st.actions then
    throw (.invalidTransition t)
  else
    set { st with
      successors := st.successors.addMember t.source (t.action, t.target)
      predecessors := st.predecessors.addMember t.target (t.action, t.source)
      transitions := st.transitions.insert t }

def removeTransition (t : Transition S A) : Edit S A P :=
  modify fun st =>
    if t ∈ st.transitions then
      { st with
        transitions := st.transitions.erase t
        successors := st.successors.removeMember t.source (t.action, t.target)
        predecessors := st.predecessors.removeMember t.target (t.action, t.source) }
    else st

def addLabel (s : S) (p : P) : Edit S A P := do
  let st ← get
  if p ∉ st.propositions then throw (.invalidLabel s p)
  else
    match st.labeling.get? s with
    | some _ => set { st with labeling := st.labeling.addMember s p }
    | none => throw (.invalidLabel s p)

def removeLabel (s : S) (p : P) : Edit S A P :=
  modify fun st => { st with labeling := st.labeling.removeMember s p }

/-- The labels as pairs of a state and a proposition that holds in it. -/
def labels (st : TransitionStore S A P) : FinSet (S × P) :=
  FinSet.ofList (st.labeling.toList.flatMap fun l => l.2.toList.map fun p => (l.1, p))

/-- The system that the store holds, without the tables. -/
def toSystem (st : TransitionStore S A P) : TransitionSystem S A P where
  name := st.name
  states := st.states
  initial := st.initial
  actions := st.actions
  propositions := st.propositions
  transitions := st.transitions
  labels := st.labels

end TransitionStore

end OmegaCheck
