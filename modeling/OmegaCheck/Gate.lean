import OmegaCheck.FinMap

/-!
# Gates

Boolean functions of named ports. A port takes its value from the inputs, else from the registers,
and is low if it is in neither.
-/

namespace OmegaCheck

/-- Values of ports; a port without a value is low where it is read. -/
abbrev PortValues := FinMap String Bool

inductive Gate where
  | const (b : Bool)
  | port (name : String)
  | not (g : Gate)
  | and (g h : Gate)
  | or (g h : Gate)
  | xor (g h : Gate)
  | ite (condition onTrue onFalse : Gate)
  deriving DecidableEq

namespace Gate

/-- Negation that cancels against a constant or a negation. -/
def negate : Gate → Gate
  | const b => const !b
  | not g => g
  | g => not g

def eval (inputs registers : PortValues) : Gate → Bool
  | const b => b
  | port name => ((inputs.get? name).or (registers.get? name)).getD false
  | not g => !g.eval inputs registers
  | and g h => g.eval inputs registers && h.eval inputs registers
  | or g h => g.eval inputs registers || h.eval inputs registers
  | xor g h => g.eval inputs registers != h.eval inputs registers
  | ite c t e => if c.eval inputs registers then t.eval inputs registers else e.eval inputs registers

/-- The number of nodes. -/
def size : Gate → Nat
  | const _ | port _ => 1
  | not g => g.size + 1
  | and g h | or g h | xor g h => g.size + h.size + 1
  | ite c t e => c.size + t.size + e.size + 1

/-- The number of nodes of all gates on a stack. -/
def stackSize : List Gate → Nat
  | [] => 0
  | g :: stack => g.size + stackSize stack

/-- Adds the ports of the gates on a stack to those that were found. -/
def collectPorts (found : FinSet String) : List Gate → FinSet String
  | [] => found
  | const _ :: stack => collectPorts found stack
  | port name :: stack => collectPorts (found.insert name) stack
  | not g :: stack => collectPorts found (g :: stack)
  | and g h :: stack | or g h :: stack | xor g h :: stack => collectPorts found (h :: g :: stack)
  | ite c t e :: stack => collectPorts found (e :: t :: c :: stack)
termination_by stack => stackSize stack
decreasing_by all_goals simp only [stackSize, size]; omega

/-- The ports that occur in a gate. -/
def ports (g : Gate) : FinSet String := collectPorts ∅ [g]

def text : Gate → String
  | const b => if b then "1" else "0"
  | port name => name
  | not g => "~" ++ g.text
  | and g h => "(" ++ g.text ++ " & " ++ h.text ++ ")"
  | or g h => "(" ++ g.text ++ " | " ++ h.text ++ ")"
  | xor g h => "(" ++ g.text ++ " ^ " ++ h.text ++ ")"
  | ite c t e => "ite(" ++ c.text ++ ", " ++ t.text ++ ", " ++ e.text ++ ")"

end Gate

namespace PortValues

/-- All values of the named ports: low before high, the last name changing fastest. -/
def all (names : FinSet String) : List PortValues :=
  names.toList.foldl
    (fun found name => found.flatMap fun v => [v.insert name false, v.insert name true]) [∅]

def low (names : FinSet String) : PortValues :=
  FinMap.ofList (names.toList.map fun name => (name, false))

/-- The names of the high ports, in order. -/
def high (values : PortValues) : List String :=
  (values.toList.filter Prod.snd).map Prod.fst

end PortValues

end OmegaCheck
