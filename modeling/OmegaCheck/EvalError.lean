import OmegaCheck.Program.Expr
import OmegaCheck.Text.Quoted

/-!
# Evaluation errors

Why a guard has no truth value in a memory, or an action no effect on it.
-/

namespace OmegaCheck

inductive EvalError where
  /-- No evaluator knows the text. -/
  | unrecognized (text : String)
  /-- A result is not a 64-bit integer. -/
  | overflow (e : Expr)
  | divisionByZero (e : Expr)
  | queueAsInteger (name : String)
  | integerAsQueue (name : String)
  | emptyChannel (channel : String)
  /-- One half of a rendezvous, as it was written. -/
  | loneRendezvous (action : String)
  /-- Two actions that are not a send and a receive. -/
  | notAPair (first second : String)
  | channelsDiffer (first second : String)
  /-- The reason an evaluator gives in its own words. -/
  | other (reason : String)
  deriving DecidableEq

namespace EvalError

def reason : EvalError → String
  | unrecognized text => "no evaluator recognizes " ++ Text.quoted text
  | overflow e => "overflow in " ++ e.text
  | divisionByZero e => "division by zero in " ++ e.text
  | queueAsInteger name => "channel " ++ name ++ " used as an integer"
  | integerAsQueue name => "variable " ++ name ++ " used as a channel"
  | emptyChannel channel => "receive from empty channel " ++ channel
  | loneRendezvous action => "rendezvous action " ++ action ++ " cannot execute on its own"
  | notAPair first second => first ++ "|" ++ second ++ " is not a send/receive pair"
  | channelsDiffer first second => first ++ "|" ++ second ++ " do not use the same channel"
  | other text => text

def message : EvalError → String
  | unrecognized text => reason (unrecognized text)
  | e => "evaluation failed: " ++ reason e

end EvalError

end OmegaCheck
