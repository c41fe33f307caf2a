import OmegaCheck.Gate
import OmegaCheck.StateSpace

/-!
# Circuits

Synchronous circuits: inputs, registers with the gate of their next value, and outputs. The
transition system of a circuit has the values of inputs and registers as states. A step reads the
next inputs and updates the registers from the present ones; all registers are low at first. A state
is labelled with the names of the ports that are high in it.
-/

namespace OmegaCheck

structure Circuit where
  inputs : FinSet String := ∅
  registers : FinMap String Gate := ∅
  outputs : FinMap String Gate := ∅

namespace Circuit

def addInput (c : Circuit) (name : String) : Circuit := { c with inputs := c.inputs.insert name }

/-- Adds a register with the gate of its next value, in place of an earlier one of that name. -/
def addRegister (c : Circuit) (name : String) (next : Gate) : Circuit :=
  { c with registers := c.registers.insert name next }

def addOutput (c : Circuit) (name : String) (gate : Gate) : Circuit :=
  { c with outputs := c.outputs.insert name gate }

def registerNames (c : Circuit) : FinSet String := FinSet.ofList c.registers.keys

def outputNames (c : Circuit) : FinSet String := FinSet.ofList c.outputs.keys

/-- The values of named gates. -/
def evalAll (gates : FinMap String Gate) (inputs registers : PortValues) : PortValues :=
  FinMap.ofList (gates.toList.map fun g => (g.1, g.2.eval inputs registers))

/-- The register values after a step. -/
def update (c : Circuit) (inputs registers : PortValues) : PortValues :=
  evalAll c.registers inputs registers

def outputValues (c : Circuit) (inputs registers : PortValues) : PortValues :=
  evalAll c.outputs inputs registers

/-- The names of the high inputs, registers and outputs in a state. -/
def highPorts (c : Circuit) (inputs registers : PortValues) : List String :=
  PortValues.high inputs ++ PortValues.high registers ++
    PortValues.high (c.outputValues inputs registers)

/-- The steps of a state: any of the `inputs` may come next. -/
def movesFrom (c : Circuit) (inputs : List PortValues) (s : PortValues × PortValues) :
    List (PortValues × (PortValues × PortValues)) :=
  let registers := c.update s.1 s.2
  inputs.map fun i => (i, (i, registers))

/-- The horizon leaves room for all values of the inputs and registers. -/
def unfold (c : Circuit) :
    Except (Halt (TransitionSystem.Error (PortValues × PortValues) PortValues String))
      (TransitionSystem (PortValues × PortValues) PortValues String) := do
  let inputs := PortValues.all c.inputs
  let space ← StateSpace.explore { horizon := Nat.pow 2 (c.inputs.size + c.registers.size) }
    (inputs.map fun i => (i, PortValues.low c.registerNames)) fun s => .ok (c.movesFrom inputs s)
  let unlabelled := space.toSystem none (FinSet.ofList inputs)
    (c.inputs ∪ c.registerNames ∪ c.outputNames) fun _ => []
  (unlabelled.labelStates fun s => c.highPorts s.1 s.2).mapError .failure

end Circuit

end OmegaCheck
