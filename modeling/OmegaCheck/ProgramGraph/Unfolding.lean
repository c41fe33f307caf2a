import OmegaCheck.Channel
import OmegaCheck.Evaluator
import OmegaCheck.ProgramGraph.Basic
import OmegaCheck.ProgramGraph.LocationText
import OmegaCheck.StateSpace

/-!
# Unfolding of program graphs

The transition system of a program graph: a state is a location with a memory, and an edge can be
taken where it is feasible and its guard holds. What an action does is read off its text. States are
labelled with the text of their location and the bindings of their memory.
-/

namespace OmegaCheck

/-- The steps that a list of edges allows in a memory: each edge with the memory after its action. -/
def enabledEdges {L A : Type} [ToString A] (es : Evaluators) (m : Memory) :
    List (Edge L A) → Except EvalError (List (Edge L A × Memory))
  | [] => .ok []
  | e :: rest => do
    if Channel.isFeasible m e.actionText then
      if ← es.guard m e.guard then
        let n ← es.effect m e.actionText
        return (e, n) :: (← enabledEdges es m rest)
      else enabledEdges es m rest
    else enabledEdges es m rest

/-- One memory for each initialization, and the empty one if there is none. -/
def initialMemories (es : Evaluators) (inits : List (List String)) :
    Except EvalError (FinSet Memory) := do
  let memories ← inits.mapM es.initialMemory
  return FinSet.ofList (if memories.isEmpty then [∅] else memories)

namespace ProgramGraph

variable {L A : Type} [Element L] [Element A] [ToString A]

def movesFrom (pg : ProgramGraph L A) (es : Evaluators) (state : L × Memory) :
    Except EvalError (List (A × (L × Memory))) := do
  let enabled ← enabledEdges es state.2 (pg.edgesFrom state.1)
  return enabled.map fun x => (x.1.action, (x.1.target, x.2))

def unfold [LocationText L] (pg : ProgramGraph L A) (es : Evaluators) (bounds : Bounds) :
    Except (Halt EvalError) (TransitionSystem (L × Memory) A String) := do
  let memories ← (initialMemories es pg.initializations.toList).mapError Halt.failure
  let space ← StateSpace.explore bounds (pg.initial.product memories).toList (pg.movesFrom es)
  return space.toSystem pg.name ∅ ∅ fun s => locationText s.1 :: s.2.propositions

end ProgramGraph

end OmegaCheck
