import OmegaCheck.ProgramGraph.Unfolding

/-!
# Channel systems

Program graphs that run side by side over one memory and communicate through channels. A component
takes an ordinary step alone; a receive and a send on one rendezvous channel are taken together by
two components. States are lists of locations, one for each component, with the common memory.
-/

namespace OmegaCheck

/-- Actions that are made from a text, as the one that two components take together is. -/
class OfText (A : Type) where
  ofText : String → A

export OfText (ofText)

instance : OfText String := ⟨id⟩

structure ChannelSystem (L : Type) [Element L] (A : Type := String) [Element A] where
  components : List (ProgramGraph L A)
  deriving DecidableEq

namespace ChannelSystem

variable {L A : Type} [Element L] [Element A] [ToString A] [OfText A]

/-- The components with their index and the location they are at. -/
def placed (cs : ChannelSystem L A) (locations : List L) : List (Nat × ProgramGraph L A × L) :=
  (cs.components.zip locations).zipIdx.map fun x => (x.2, x.1)

/-- Joint steps of the receive `e` of component `i` with sends among the edges of component `j`. -/
def handshakes (es : Evaluators) (m : Memory) (locations : List L) (i : Nat) (e : Edge L A)
    (j : Nat) : List (Edge L A) → Except EvalError (List (A × (List L × Memory)))
  | [] => .ok []
  | f :: rest => do
    if Channel.isHandshake e.actionText f.actionText then
      if ← es.guard m f.guard then
        let label := Channel.handshakeLabel i e.actionText j f.actionText
        let n ← es.effect m label
        let move := (ofText label, ((locations.set i e.target).set j f.target, n))
        return move :: (← handshakes es m locations i e j rest)
      else handshakes es m locations i e j rest
    else handshakes es m locations i e j rest

/-- The steps that edge `e` of component `i` takes part in; a rendezvous counts for its receiver. -/
def edgeMoves (cs : ChannelSystem L A) (es : Evaluators) (locations : List L) (m : Memory) (i : Nat)
    (e : Edge L A) : Except EvalError (List (A × (List L × Memory))) := do
  if Channel.isRendezvous e.actionText then
    if (Channel.source? e.actionText).isSome then
      if ← es.guard m e.guard then
        let partners := (cs.placed locations).filter fun x => x.1 ≠ i
        let moves ← partners.mapM fun x =>
          handshakes es m locations i e x.1 (x.2.1.edgesFrom x.2.2)
        return moves.flatten
      else return []
    else return []
  else
    let enabled ← enabledEdges es m [e]
    return enabled.map fun x => (x.1.action, (locations.set i x.1.target, x.2))

def movesFrom (cs : ChannelSystem L A) (es : Evaluators) (state : List L × Memory) :
    Except EvalError (List (A × (List L × Memory))) := do
  let moves ← (cs.placed state.1).mapM fun x => do
    let ofEdges ← (x.2.1.edgesFrom x.2.2).mapM (cs.edgeMoves es state.1 state.2 x.1)
    return ofEdges.flatten
  return moves.flatten

/-- All ways to run one initialization of each component that has any, in order. -/
def initializations (cs : ChannelSystem L A) : List (List String) :=
  let inits := (cs.components.map ProgramGraph.initializations).filter fun s => !s.isEmpty
  (FinSet.choices inits).toList.map List.flatten

def unfold [LocationText L] (cs : ChannelSystem L A) (es : Evaluators) (bounds : Bounds) :
    Except (Halt EvalError) (TransitionSystem (List L × Memory) A String) := do
  let memories ← (initialMemories es cs.initializations).mapError Halt.failure
  let locations := FinSet.choices (cs.components.map ProgramGraph.initial)
  let space ← StateSpace.explore bounds (locations.product memories).toList (cs.movesFrom es)
  return space.toSystem none ∅ ∅ fun s => s.1.map locationText ++ s.2.propositions

end ChannelSystem

end OmegaCheck
