import OmegaCheck.StateSpace
import OmegaCheck.TransitionSystem.Query

/-!
# Interleaving of transition systems

Two systems side by side. A composite state moves by an action of one component alone, unless it is
a handshake action, which both components take together. Only what can be reached is built.

`interleaveChecked` asks the components for the labels and labels the composite states one by one;
any of this can be refused if the components refer to what they do not have. `interleave` is what
comes out where nothing is refused.
-/

namespace OmegaCheck.TransitionSystem

variable {S T A P : Type} [Element S] [Element T] [Element A] [Element P]

/-- The steps of a pair of states, from the steps that leave its components. -/
def jointMoves (handshake : FinSet A) (s : S) (t : T) (left : List (A × S)) (right : List (A × T)) :
    List (A × (S × T)) :=
  (left.flatMap fun m =>
    if m.1 ∈ handshake then
      (right.filter fun n => n.1 = m.1).map fun n => (m.1, (m.2, n.2))
    else [(m.1, (m.2, t))]) ++
  (right.filter fun n => n.1 ∉ handshake).map fun n => (n.1, (s, n.2))

/-- The two systems in parallel, synchronized on the handshake actions. -/
def interleave (handshake : FinSet A) (ts : TransitionSystem S A P) (us : TransitionSystem T A P) :
    TransitionSystem (S × T) A P :=
  let left := ts.successorTable
  let right := us.successorTable
  let leftLabels := ts.labelTable
  let rightLabels := us.labelTable
  let space := StateSpace.reachable (ts.states.size * us.states.size)
    (ts.initial.product us.initial).toList
    fun x => jointMoves handshake x.1 x.2 (left.values x.1) (right.values x.2)
  space.toSystem none (ts.actions ∪ us.actions) (ts.propositions ∪ us.propositions)
    fun x => leftLabels.values x.1 ++ rightLabels.values x.2

/-- Why two systems cannot be interleaved. -/
inductive InterleaveError (S T A P : Type) where
  /-- A component is asked for the label of a state that it does not have. -/
  | left (e : Error S A P)
  | right (e : Error T A P)
  /-- A composite state is to be labelled with an unknown proposition. -/
  | label (e : Error (S × T) A P)

/-- Labels a state with one proposition after the other. -/
def addLabels (ts : TransitionSystem S A P) (s : S) (ps : List P) :
    Except (Error S A P) (TransitionSystem S A P) :=
  ps.foldlM (fun ts p => ts.addLabel s p) ts

/-- Labels a composite state with all that labels its components. -/
def labelPair (ts : TransitionSystem S A P) (us : TransitionSystem T A P) (left : S → List P)
    (right : T → List P) (joint : TransitionSystem (S × T) A P) (x : S × T) :
    Except (InterleaveError S T A P) (TransitionSystem (S × T) A P) := do
  (ts.checkState x.1).mapError .left
  (us.checkState x.2).mapError .right
  (joint.addLabels x (left x.1 ++ right x.2)).mapError .label

/-- The two systems in parallel, or why they cannot be put in parallel. -/
def interleaveChecked (handshake : FinSet A) (ts : TransitionSystem S A P)
    (us : TransitionSystem T A P) :
    Except (Halt (InterleaveError S T A P)) (TransitionSystem (S × T) A P) := do
  let left := ts.successorTable
  let right := us.successorTable
  let leftLabels := ts.labelTable
  let rightLabels := us.labelTable
  let space ← StateSpace.explore { horizon := ts.states.size * us.states.size }
    (ts.initial.product us.initial).toList
    fun x => .ok (jointMoves handshake x.1 x.2 (left.values x.1) (right.values x.2))
  let unlabelled := space.toSystem none (ts.actions ∪ us.actions)
    (ts.propositions ∪ us.propositions) fun _ => []
  (space.states.toList.foldlM (labelPair ts us leftLabels.values rightLabels.values)
    unlabelled).mapError .failure

end OmegaCheck.TransitionSystem
