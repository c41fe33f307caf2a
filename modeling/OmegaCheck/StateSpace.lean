import OmegaCheck.Search
import OmegaCheck.TransitionSystem.Basic

/-!
# State spaces

The part of a state graph that can be reached from its initial states, found breadth first. Where
the steps of a state are given by a function that can fail, or the graph may be infinite, `explore`
stops with a reason: at the first failure, when there are more states than a limit allows, or, if
there is no limit, after as many expansions as the horizon says. Where the graph is known to be
finite, `reachable` just returns it.
-/

namespace OmegaCheck

/-- States, and the steps between them. -/
structure StateSpace (S A : Type) [Element S] [Element A] where
  states : FinSet S
  initial : FinSet S
  transitions : FinSet (Transition S A)

/-- Why an exploration stopped before it was complete. -/
inductive Halt (ε : Type) where
  /-- There are more states than the limit. -/
  | limit (limit : Nat)
  /-- There is no limit, and all expansions were used up. -/
  | horizon
  /-- The steps of a state could not be computed. -/
  | failure (cause : ε)
  deriving DecidableEq

def Halt.message {ε : Type} (causeMessage : ε → String) : Halt ε → String
  | limit n => "state space exceeds the limit of " ++ n.repr ++ " states"
  | horizon => "state space exceeds the horizon"
  | failure cause => causeMessage cause

/-- How far an exploration may go: `limit` bounds the number of states; without a limit, `horizon`
bounds the number of states that are expanded. -/
structure Bounds where
  limit : Option Nat := none
  horizon : Nat := Nat.pow 2 64

/-- As many expansions as can be needed. Each state is expanded once, so that within a limit its own
number suffices. -/
def Bounds.expansions (bounds : Bounds) : Nat := bounds.limit.getD bounds.horizon

namespace StateSpace

variable {S A ε : Type} [Element S] [Element A]

def checkLimit (bounds : Bounds) (states : FinSet S) : Except (Halt ε) Unit :=
  match bounds.limit with
  | none => .ok ()
  | some n => if n < states.size then .error (.limit n) else .ok ()

/-- The steps from `s` as transitions. -/
def stepsFrom (s : S) (moves : List (A × S)) : List (Transition S A) :=
  moves.map fun m => ⟨s, m.1, m.2⟩

/-- Expands the pending states one after the other. -/
def expand (bounds : Bounds) (moves : S → Except ε (List (A × S))) :
    Nat → StateSpace S A → List S → Except (Halt ε) (StateSpace S A)
  | _, space, [] => .ok space
  | 0, _, _ :: _ => .error .horizon
  | n + 1, space, s :: pending => do
    let steps ← (moves s).mapError Halt.failure
    let (states, new) := Search.meet space.states (steps.map Prod.snd)
    checkLimit bounds states
    expand bounds moves n
      { space with
        states := states
        transitions := space.transitions.insertAll (stepsFrom s steps) }
      (pending ++ new)

/-- Explores the graph from the initial states. -/
def explore (bounds : Bounds) (initial : List S) (moves : S → Except ε (List (A × S))) :
    Except (Halt ε) (StateSpace S A) := do
  let (states, new) := Search.meet ∅ initial
  checkLimit bounds states
  expand bounds moves bounds.expansions ⟨states, states, ∅⟩ new

/-- The reachable part of a graph in which at most `bound` states can be reached. -/
def reachable (bound : Nat) (initial : List S) (moves : S → List (A × S)) : StateSpace S A :=
  let found := Search.order bound (fun s => (moves s).map Prod.snd) initial
  { states := FinSet.ofList found
    initial := FinSet.ofList initial
    transitions := FinSet.ofList (found.flatMap fun s => stepsFrom s (moves s)) }

/-- The transition system of a state space, with the actions that occur in it and `more`, and each
state labelled by `label` with propositions of `props` or further ones. -/
def toSystem {P : Type} [Element P] (space : StateSpace S A) (name : Option String)
    (more : FinSet A) (props : FinSet P) (label : S → List P) : TransitionSystem S A P where
  name := name
  states := space.states
  initial := space.initial
  actions := more ∪ space.transitions.image Transition.action
  propositions := props ∪ space.states.flatMap label
  transitions := space.transitions
  labels := space.states.flatMap fun s => (label s).map fun p => (s, p)

end StateSpace

end OmegaCheck
