import OmegaCheck.Literal

/-!
# Transition systems

A labelled transition system is given by six finite sets: states, initial states, actions, atomic
propositions, transitions and labels, the last as pairs of a state and a proposition that holds in it.
Changes keep every reference intact: initial states are states, transitions join states under
registered actions, labels use registered states and propositions, and nothing is removed while
something refers to it.
-/

namespace OmegaCheck

/-- A step from `source` to `target`. -/
structure Transition (S A : Type) where
  source : S
  action : A
  target : S

namespace Transition

variable {S A : Type}

/-- Transitions are ordered by source, then action, then target. -/
instance [Element S] [Element A] : Element (Transition S A) :=
  Element.ofInjective (fun t => (t.source, t.action, t.target)) fun t u h => by
    cases t; cases u; cases h; rfl

def text [Literal S] [Literal A] (t : Transition S A) : String :=
  literal t.source ++ " --" ++ literal t.action ++ "--> " ++ literal t.target

end Transition

/-- A part of a model that can refer to another part. -/
inductive ModelPart where
  | initialStates
  | transitions
  | labeling
  | initialLocations
  deriving DecidableEq

def ModelPart.text : ModelPart → String
  | initialStates => "initial states"
  | transitions => "transitions"
  | labeling => "labeling function"
  | initialLocations => "initial locations"

structure TransitionSystem (S A P : Type) [Element S] [Element A] [Element P] where
  name : Option String := none
  states : FinSet S := ∅
  initial : FinSet S := ∅
  actions : FinSet A := ∅
  propositions : FinSet P := ∅
  transitions : FinSet (Transition S A) := ∅
  labels : FinSet (S × P) := ∅
  deriving DecidableEq

namespace TransitionSystem

/-- Why a change or a question is refused. -/
inductive Error (S A P : Type) where
  | unknownState (s : S)
  | unknownAction (a : A)
  | invalidInitial (s : S)
  | invalidTransition (t : Transition S A)
  | invalidLabel (s : S) (p : P)
  | stateInUse (s : S) (part : ModelPart)
  | actionInUse (a : A)
  | propositionInUse (p : P)

def inUseText (kind item : String) (part : ModelPart) : String :=
  "cannot remove " ++ kind ++ " " ++ item ++ ": still referenced by " ++ part.text

def Error.message {S A P : Type} [Literal S] [Literal A] [Literal P] : Error S A P → String
  | unknownState s => "state " ++ literal s ++ " not found"
  | unknownAction a => "action " ++ literal a ++ " not found"
  | invalidInitial s =>
    "cannot make " ++ literal s ++ " initial: it is not a state of the system"
  | invalidTransition t =>
    "invalid transition " ++ t.text ++ ": endpoints and action must be registered"
  | invalidLabel s p =>
    "invalid label (" ++ literal s ++ ", " ++ literal p ++
      "): state or atomic proposition is not registered"
  | stateInUse s part => inUseText "state" (literal s) part
  | actionInUse a => inUseText "action" (literal a) .transitions
  | propositionInUse p => inUseText "atomic proposition" (literal p) .labeling

variable {S A P : Type} [Element S] [Element A] [Element P]

/-- The system without any part. -/
def empty : TransitionSystem S A P := {}

instance : Inhabited (TransitionSystem S A P) := ⟨empty⟩

def setName (ts : TransitionSystem S A P) (name : String) : TransitionSystem S A P :=
  { ts with name := some name }

def addState (ts : TransitionSystem S A P) (s : S) : TransitionSystem S A P :=
  { ts with states := ts.states.insert s }

def addStates (ts : TransitionSystem S A P) (l : List S) : TransitionSystem S A P :=
  l.foldl addState ts

def addAction (ts : TransitionSystem S A P) (a : A) : TransitionSystem S A P :=
  { ts with actions := ts.actions.insert a }

def addActions (ts : TransitionSystem S A P) (l : List A) : TransitionSystem S A P :=
  l.foldl addAction ts

def addProposition (ts : TransitionSystem S A P) (p : P) : TransitionSystem S A P :=
  { ts with propositions := ts.propositions.insert p }

def addPropositions (ts : TransitionSystem S A P) (l : List P) : TransitionSystem S A P :=
  l.foldl addProposition ts

def addInitial (ts : TransitionSystem S A P) (s : S) :
    Except (Error S A P) (TransitionSystem S A P) :=
  if s ∈ ts.states then .ok { ts with initial := ts.initial.insert s }
  else .error (.invalidInitial s)

def removeInitial (ts : TransitionSystem S A P) (s : S) : TransitionSystem S A P :=
  { ts with initial := ts.initial.erase s }

def addTransition (ts : TransitionSystem S A P) (t : Transition S A) :
    Except (Error S A P) (TransitionSystem S A P) :=
  if t.source ∈ ts.states ∧ t.target ∈ ts.states ∧ t.action ∈ ts.actions then
    .ok { ts with transitions := ts.transitions.insert t }
  else .error (.invalidTransition t)

def removeTransition (ts : TransitionSystem S A P) (t : Transition S A) : TransitionSystem S A P :=
  { ts with transitions := ts.transitions.erase t }

def addLabel (ts : TransitionSystem S A P) (s : S) (p : P) :
    Except (Error S A P) (TransitionSystem S A P) :=
  if p ∈ ts.propositions ∧ s ∈ ts.states then .ok { ts with labels := ts.labels.insert (s, p) }
  else .error (.invalidLabel s p)

def removeLabel (ts : TransitionSystem S A P) (s : S) (p : P) : TransitionSystem S A P :=
  { ts with labels := ts.labels.erase (s, p) }

/-- Removes a state that is neither initial, nor labelled, nor an end of a transition. -/
def removeState (ts : TransitionSystem S A P) (s : S) :
    Except (Error S A P) (TransitionSystem S A P) :=
  if s ∉ ts.states then .error (.unknownState s)
  else if s ∈ ts.initial then .error (.stateInUse s .initialStates)
  else if ts.labels.toList.any fun l => l.1 = s then .error (.stateInUse s .labeling)
  else if ts.transitions.toList.any fun t => t.source = s || t.target = s then
    .error (.stateInUse s .transitions)
  else .ok { ts with states := ts.states.erase s }

/-- Removes an action that no transition uses; an unknown action is no error. -/
def removeAction (ts : TransitionSystem S A P) (a : A) :
    Except (Error S A P) (TransitionSystem S A P) :=
  if ts.transitions.toList.any fun t => t.action = a then .error (.actionInUse a)
  else .ok { ts with actions := ts.actions.erase a }

/-- Removes a proposition that labels no state; an unknown proposition is no error. -/
def removeProposition (ts : TransitionSystem S A P) (p : P) :
    Except (Error S A P) (TransitionSystem S A P) :=
  if ts.labels.toList.any fun l => l.2 = p then .error (.propositionInUse p)
  else .ok { ts with propositions := ts.propositions.erase p }

/-- Takes all propositions but the `kept` ones from the labels and from the system. -/
def keepPropositions (ts : TransitionSystem S A P) (kept : FinSet P) : TransitionSystem S A P :=
  { ts with
    propositions := ts.propositions.filter kept.contains
    labels := ts.labels.filter fun l => kept.contains l.2 }

/-- Labels every state `s` with the propositions `label s`, each of which is registered first. -/
def labelStates (label : S → List P) (ts : TransitionSystem S A P) :
    Except (Error S A P) (TransitionSystem S A P) :=
  (ts.states.toList.flatMap fun s => (label s).map fun p => (s, p)).foldlM
    (fun ts l => (ts.addProposition l.2).addLabel l.1 l.2) ts

/-- The system with its states, actions and propositions renamed. -/
def map {S' A' P' : Type} [Element S'] [Element A'] [Element P'] (f : S → S') (g : A → A')
    (h : P → P') (ts : TransitionSystem S A P) : TransitionSystem S' A' P' where
  name := ts.name
  states := ts.states.image f
  initial := ts.initial.image f
  actions := ts.actions.image g
  propositions := ts.propositions.image h
  transitions := ts.transitions.image fun t => ⟨f t.source, g t.action, f t.target⟩
  labels := ts.labels.image fun l => (f l.1, h l.2)

end TransitionSystem

end OmegaCheck
