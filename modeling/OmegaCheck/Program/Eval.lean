import OmegaCheck.EvalError
import OmegaCheck.Memory
import OmegaCheck.Program.Stmt

/-!
# Meaning of expressions and actions

Expressions are computed from left to right in exact integers; a result outside the 64-bit range is
an error. Names without a cell count as zero, or as the empty queue.
-/

namespace OmegaCheck

/-- The 64-bit integer of that value, if there is one. -/
def int64? (n : Int) : Option Int64 :=
  if Int64.minValue.toInt ≤ n ∧ n ≤ Int64.maxValue.toInt then some (Int64.ofInt n) else none

def truth (b : Bool) : Int64 := if b then 1 else 0

namespace Memory

def readInt (m : Memory) (name : String) : Except EvalError Int64 :=
  match m.get? name with
  | none => .ok 0
  | some (.int n) => .ok n
  | some (.queue _) => .error (.queueAsInteger name)

def readQueue (m : Memory) (channel : String) : Except EvalError (List Int64) :=
  match m.get? channel with
  | none => .ok []
  | some (.queue messages) => .ok messages
  | some (.int _) => .error (.integerAsQueue channel)

/-- Appends a message to a channel. -/
def send (m : Memory) (channel : String) (value : Memory → Except EvalError Int64) :
    Except EvalError Memory := do
  let messages ← m.readQueue channel
  let v ← value m
  return m.set channel (.queue (messages ++ [v]))

/-- Moves the oldest message of a channel into a variable. -/
def receive (m : Memory) (channel target : String) : Except EvalError Memory := do
  match ← m.readQueue channel with
  | [] => .error (.emptyChannel channel)
  | v :: messages => return (m.set channel (.queue messages)).set target (.int v)

end Memory

namespace Expr

/-- The result of the operator of `e` on two values, both of them needed. -/
def combine (e : Expr) (op : BinOp) (a b : Int64) : Except EvalError Int64 :=
  let exact (n : Int) : Except EvalError Int64 :=
    match int64? n with
    | some v => .ok v
    | none => .error (.overflow e)
  match op with
  | .or | .and => .ok (truth (b ≠ 0))
  | .eq => .ok (truth (a = b))
  | .ne => .ok (truth (a ≠ b))
  | .lt => .ok (truth (a.toInt < b.toInt))
  | .le => .ok (truth (a.toInt ≤ b.toInt))
  | .gt => .ok (truth (b.toInt < a.toInt))
  | .ge => .ok (truth (b.toInt ≤ a.toInt))
  | .add => exact (a.toInt + b.toInt)
  | .sub => exact (a.toInt - b.toInt)
  | .mul => exact (a.toInt * b.toInt)
  | .div => if b = 0 then .error (.divisionByZero e) else exact (a.toInt.tdiv b.toInt)
  | .mod =>
    if b = 0 then .error (.divisionByZero e)
    -- The quotient that belongs to this remainder has to be in range as well.
    else if (int64? (a.toInt.tdiv b.toInt)).isNone then .error (.overflow e)
    else exact (a.toInt.tmod b.toInt)

/-- Whether the left operand alone decides, and what it decides. -/
def shortcut? (op : BinOp) (a : Int64) : Option Int64 :=
  match op with
  | .and => if a = 0 then some 0 else none
  | .or => if a = 0 then none else some 1
  | _ => none

def eval (m : Memory) : Expr → Except EvalError Int64
  | int n => .ok n
  | bool b => .ok (truth b)
  | var name => m.readInt name
  | not e => do
    let v ← e.eval m
    return truth (v = 0)
  | neg e => do
    let v ← e.eval m
    match int64? (-v.toInt) with
    | some w => .ok w
    | none => .error (.overflow (neg e))
  | binary op lhs rhs => do
    let a ← lhs.eval m
    match shortcut? op a with
    | some v => .ok v
    | none =>
      let b ← rhs.eval m
      combine (binary op lhs rhs) op a b

end Expr

namespace Action

def assignAll (m : Memory) : List (String × Expr) → Except EvalError Memory
  | [] => .ok m
  | (name, value) :: rest => do
    let v ← value.eval m
    assignAll (m.set name (.int v)) rest

/-- A rendezvous channel is one whose name starts with an underscore. -/
def isRendezvousChannel (channel : String) : Bool := channel.toList.head? = some '_'

end Action

end OmegaCheck
