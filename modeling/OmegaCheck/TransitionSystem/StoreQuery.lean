import OmegaCheck.Search
import OmegaCheck.TransitionSystem.Store

/-!
# Questions about stores

Labels, successors, predecessors, reachability and determinism, answered from the tables of a store.
Questions about a state or an action that the store does not have are refused. Two stores count as
the same when their sets and labels agree; the tables of steps are not compared.
-/

namespace OmegaCheck.TransitionStore

open TransitionSystem (Error)

variable {S A P : Type} [Element S] [Element A] [Element P]

def same (st st' : TransitionStore S A P) : Bool :=
  st.name = st'.name && st.states = st'.states && st.initial = st'.initial &&
    st.actions = st'.actions && st.propositions = st'.propositions &&
    st.transitions = st'.transitions && st.labeling = st'.labeling

def checkState (st : TransitionStore S A P) (s : S) : Except (Error S A P) Unit :=
  if s ∈ st.states then .ok () else .error (.unknownState s)

def checkAction (st : TransitionStore S A P) (a : A) : Except (Error S A P) Unit :=
  if a ∈ st.actions then .ok () else .error (.unknownAction a)

def label (st : TransitionStore S A P) (s : S) : Except (Error S A P) (FinSet P) :=
  match st.labeling.get? s with
  | some found => .ok found
  | none => .error (.unknownState s)

/-- The other ends of the steps that a table keeps for a state. -/
def across (st : TransitionStore S A P) (table : FinMap S (FinSet (A × S))) (s : S) :
    Except (Error S A P) (FinSet S) := do
  st.checkState s
  return (table.members s).image Prod.snd

/-- The other ends of those steps that have the given action. -/
def acrossBy (st : TransitionStore S A P) (table : FinMap S (FinSet (A × S))) (s : S) (a : A) :
    Except (Error S A P) (FinSet S) := do
  st.checkState s
  st.checkAction a
  return (table.members s).filterMap fun x => if x.1 = a then some x.2 else none

/-- The union of the answers for each state; the first refusal counts. -/
def unionOver (f : S → Except (Error S A P) (FinSet S)) :
    List S → Except (Error S A P) (FinSet S)
  | [] => .ok ∅
  | s :: rest => do
    let first ← f s
    let others ← unionOver f rest
    return first ∪ others

/-- The action is checked even if there is no state to ask about. -/
def acrossAllBy (st : TransitionStore S A P) (table : FinMap S (FinSet (A × S)))
    (l : List S) (a : A) : Except (Error S A P) (FinSet S) := do
  st.checkAction a
  unionOver (fun s => st.acrossBy table s a) l

def post (st : TransitionStore S A P) (s : S) : Except (Error S A P) (FinSet S) :=
  st.across st.successors s

def postBy (st : TransitionStore S A P) (s : S) (a : A) : Except (Error S A P) (FinSet S) :=
  st.acrossBy st.successors s a

def postAll (st : TransitionStore S A P) (l : List S) : Except (Error S A P) (FinSet S) :=
  unionOver st.post l

def postAllBy (st : TransitionStore S A P) (l : List S) (a : A) :
    Except (Error S A P) (FinSet S) :=
  st.acrossAllBy st.successors l a

def pre (st : TransitionStore S A P) (s : S) : Except (Error S A P) (FinSet S) :=
  st.across st.predecessors s

def preBy (st : TransitionStore S A P) (s : S) (a : A) : Except (Error S A P) (FinSet S) :=
  st.acrossBy st.predecessors s a

def preAll (st : TransitionStore S A P) (l : List S) : Except (Error S A P) (FinSet S) :=
  unionOver st.pre l

def preAllBy (st : TransitionStore S A P) (l : List S) (a : A) :
    Except (Error S A P) (FinSet S) :=
  st.acrossAllBy st.predecessors l a

/-- The steps that leave a state, as pairs of an action and a target; none for an unknown state. -/
def outgoing (st : TransitionStore S A P) (s : S) : FinSet (A × S) := st.successors.members s

def next (st : TransitionStore S A P) (s : S) : List S := (st.outgoing s).toList.map Prod.snd

/-- The states reachable from the seeds, which are included even if they are not states. -/
def reachFrom (st : TransitionStore S A P) (seeds : List S) : FinSet S :=
  FinSet.ofList (Search.order (seeds.length + st.transitions.size) st.next seeds)

def reach (st : TransitionStore S A P) : FinSet S := st.reachFrom st.initial.toList

def isTerminal (st : TransitionStore S A P) (s : S) : Except (Error S A P) Bool := do
  st.checkState s
  return (st.outgoing s).isEmpty

/-- At most one initial state, and at most one step for each state and action. -/
def isActionDeterministic (st : TransitionStore S A P) : Bool :=
  st.initial.size ≤ 1 && st.successors.toList.all fun x => (x.2.toList.map Prod.fst).Nodup

/-- At most one initial state, and no two successors of a state with equal labels. There is no answer
if a successor has no label. -/
def isLabelDeterministic? (st : TransitionStore S A P) : Option Bool :=
  if 1 < st.initial.size then some false
  else st.successors.toList.allM fun x => do
    let labels ← (x.2.image Prod.snd).toList.mapM st.labeling.get?
    return labels.Nodup

end OmegaCheck.TransitionStore
