import OmegaCheck.TransitionSystem.StoreQuery

/-!
# Executions

Finite executions as alternating sequences of states and actions, and the tests whether such a
sequence follows the transitions of a system, starts in an initial state and ends in a terminal one.
-/

namespace OmegaCheck

/-- A sequence of states with an action between each two neighbours. -/
structure Fragment (S A : Type) where
  head : S
  steps : List (A × S)

namespace Fragment

variable {S A : Type}

/-- The sequence of a single state. -/
def single (s : S) : Fragment S A := ⟨s, []⟩

/-- Appends one step. -/
def snoc (e : Fragment S A) (a : A) (s : S) : Fragment S A := ⟨e.head, e.steps ++ [(a, s)]⟩

def states (e : Fragment S A) : List S := e.head :: e.steps.map Prod.snd

def actions (e : Fragment S A) : List A := e.steps.map Prod.fst

def last (e : Fragment S A) : S := (e.steps.getLast?.map Prod.snd).getD e.head

/-- The number of steps. -/
def length (e : Fragment S A) : Nat := e.steps.length

def isEmpty (e : Fragment S A) : Bool := e.steps.isEmpty

end Fragment

namespace TransitionStore

open TransitionSystem (Error)

variable {S A P : Type} [Element S] [Element A] [Element P]

/-- Whether the steps follow transitions from `s` on. An unknown action or state is refused, unless
a missing transition comes before it. -/
def followsFrom (st : TransitionStore S A P) (s : S) :
    List (A × S) → Except (Error S A P) Bool
  | [] => .ok true
  | (a, t) :: rest => do
    st.checkAction a
    st.checkState t
    if (a, t) ∈ st.outgoing s then st.followsFrom t rest else return false

def isFragment (st : TransitionStore S A P) (e : Fragment S A) : Except (Error S A P) Bool := do
  st.checkState e.head
  st.followsFrom e.head e.steps

def isInitialFragment (st : TransitionStore S A P) (e : Fragment S A) :
    Except (Error S A P) Bool := do
  if ← st.isFragment e then return e.head ∈ st.initial else return false

def isMaximalFragment (st : TransitionStore S A P) (e : Fragment S A) :
    Except (Error S A P) Bool := do
  if ← st.isFragment e then st.isTerminal e.last else return false

/-- Whether a fragment is both initial and maximal. -/
def isExecution (st : TransitionStore S A P) (e : Fragment S A) : Except (Error S A P) Bool := do
  if ← st.isInitialFragment e then st.isTerminal e.last else return false

end TransitionStore

end OmegaCheck
