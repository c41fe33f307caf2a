import OmegaCheck.Program.Eval
import OmegaCheck.Program.Parser

/-!
# Evaluators

Program graphs carry their guards and actions as texts. An evaluator gives meaning to the texts it
knows and passes on the others; a list of evaluators is asked in order, and the first that knows a
text decides.
-/

namespace OmegaCheck

/-- Meaning for some texts: `none` says that the text is not one of them. -/
structure Evaluator where
  guard? : Memory → String → Option (Except EvalError Bool)
  effect? : Memory → String → Option (Except EvalError Memory)

namespace Evaluator

def isBlankText (s : String) : Bool := s.toList.all Text.isBlank

/-- What an action that is not about channels does. -/
def perform? (m : Memory) : Action → Option (Except EvalError Memory)
  | .skip => some (.ok m)
  | .assign name value => some (Action.assignAll m [(name, value)])
  | .atomic assignments => some (Action.assignAll m assignments)
  | .receive _ _ | .send _ _ => none

/-- Expressions as guards; `skip`, assignments and atomic blocks as actions. The blank text is a
true guard and an action without effect. -/
def assignments : Evaluator where
  guard? m text :=
    if isBlankText text then some (.ok true)
    else (Expr.parse text).toOption.map fun e => (e.eval m).map (· ≠ 0)
  effect? m text :=
    if isBlankText text then some (.ok m)
    else (Action.parse text).toOption.bind (perform? m)

/-- The joint step of a receive and a send. -/
def exchange (m : Memory) (first second : Action) : Except EvalError Memory :=
  let transfer (c target d : String) (value : Expr) : Except EvalError Memory := do
    if c = d then
      let v ← value.eval m
      return m.set target (.int v)
    else .error (.channelsDiffer first.text second.text)
  match first, second with
  | .receive c target, .send d value => transfer c target d value
  | .send d value, .receive c target => transfer c target d value
  | _, _ => .error (.notAPair first.text second.text)

/-- What an action does alone if it is about channels; `text` is how it was written. -/
def communicate? (m : Memory) (text : String) : Action → Option (Except EvalError Memory)
  | .receive channel target =>
    if Action.isRendezvousChannel channel then some (.error (.loneRendezvous text))
    else some (m.receive channel target)
  | .send channel value =>
    if Action.isRendezvousChannel channel then some (.error (.loneRendezvous text))
    else some (m.send channel value.eval)
  | _ => none

/-- Sends and receives, and the joint steps of two rendezvous halves. It knows no guards. -/
def channels : Evaluator where
  guard? _ _ := none
  effect? m text :=
    match Action.parse text with
    | .ok action => communicate? m text action
    | .error _ => (Action.parsePair text).toOption.map fun p => exchange m p.1 p.2

end Evaluator

/-- Evaluators in the order in which they are asked. -/
abbrev Evaluators := List Evaluator

namespace Evaluators

def standard : Evaluators := [Evaluator.assignments, Evaluator.channels]

/-- Whether a guard holds in a memory. -/
def guard (es : Evaluators) (m : Memory) (text : String) : Except EvalError Bool :=
  (es.findSome? fun e => e.guard? m text).getD (.error (.unrecognized text))

/-- The memory after an action. -/
def effect (es : Evaluators) (m : Memory) (text : String) : Except EvalError Memory :=
  (es.findSome? fun e => e.effect? m text).getD (.error (.unrecognized text))

/-- The memory after a list of actions, from the empty memory. -/
def initialMemory (es : Evaluators) (actions : List String) : Except EvalError Memory :=
  actions.foldlM es.effect ∅

end Evaluators

end OmegaCheck
