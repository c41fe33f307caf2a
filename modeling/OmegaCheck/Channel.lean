import OmegaCheck.Memory
import OmegaCheck.Text.Blank

/-!
# Channel actions

Channel actions are recognized by their text alone: `c?x` reads channel `c`, `c!e` writes to it, and
a leading underscore marks one half of a rendezvous, which needs a partner.
-/

namespace OmegaCheck.Channel

def isRendezvous (action : String) : Bool := action.toList.head? = some '_'

/-- The trimmed text in front of the first `mark`. -/
def before? (mark : Char) (action : String) : Option String :=
  if mark ∈ action.toList then
    some (String.ofList (Text.trimChars (action.toList.takeWhile (· ≠ mark))))
  else none

/-- The channel that a receive reads. -/
def source? (action : String) : Option String := before? '?' action

/-- The channel that a send writes to. -/
def sink? (action : String) : Option String := before? '!' action

/-- Whether `send` writes to the rendezvous channel that `receive` reads. -/
def isHandshake (receive send : String) : Bool :=
  isRendezvous receive && isRendezvous send && (source? receive).isSome &&
    source? receive = sink? send && (source? send).isNone

/-- The label of a joint step: the action of the component with the smaller index first. -/
def handshakeLabel (i : Nat) (a : String) (j : Nat) (b : String) : String :=
  if i < j then a ++ "|" ++ b else b ++ "|" ++ a

/-- Whether a component can take the action alone: half a rendezvous never, a receive only from a
queue with messages, anything else always. -/
def isFeasible (m : Memory) (action : String) : Bool :=
  if isRendezvous action && ((source? action).isSome || (sink? action).isSome) then false
  else
    match source? action with
    | none => true
    | some channel =>
      match m.get? channel with
      | some (.queue (_ :: _)) => true
      | _ => false

end OmegaCheck.Channel
