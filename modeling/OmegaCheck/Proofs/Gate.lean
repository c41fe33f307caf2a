import OmegaCheck.Gate

/-!
# The ports of a gate

The value of a gate depends on the ports that occur in it and on nothing else. The ports are
collected from a stack of gates that are still to be looked at, whereas values are computed by
recursion, so that both are compared with the occurrence of a port in a gate.
-/

namespace OmegaCheck

/-- The value that is read from a port: that of the input, else of the register, else low. -/
def PortValues.lookup (inputs registers : PortValues) (name : String) : Bool :=
  ((inputs.get? name).or (registers.get? name)).getD false

namespace Gate

variable {g : Gate} {name : String}

/-- Whether some node of the gate is the named port. -/
def HasPort (name : String) : Gate → Prop
  | const _ => False
  | port n => name = n
  | not g => g.HasPort name
  | and g h | or g h | xor g h => g.HasPort name ∨ h.HasPort name
  | ite c t e => c.HasPort name ∨ t.HasPort name ∨ e.HasPort name

/-- What is found in the end was found before or occurs in a gate on the stack. -/
theorem mem_collectPorts {found : FinSet String} {stack : List Gate} :
    name ∈ collectPorts found stack ↔ name ∈ found ∨ ∃ g ∈ stack, g.HasPort name := by
  fun_induction collectPorts found stack with
  | case1 found => simp
  | case2 found b stack ih => simp [ih, HasPort]
  | case3 found n stack ih => simp [ih, HasPort, or_left_comm, or_assoc]
  | case4 found g stack ih => simp [ih, HasPort]
  | case5 found g h stack ih | case6 found g h stack ih | case7 found g h stack ih =>
    simp [ih, HasPort, or_left_comm, or_assoc]
  | case8 found c t e stack ih => simp [ih, HasPort, or_left_comm, or_assoc]

theorem mem_ports : name ∈ g.ports ↔ g.HasPort name := by
  rw [ports, mem_collectPorts]
  simp

/-- Ports with the same values give a gate the same value. -/
theorem eval_congr {inputs registers inputs' registers' : PortValues}
    (h : ∀ name, g.HasPort name →
      PortValues.lookup inputs registers name = PortValues.lookup inputs' registers' name) :
    g.eval inputs registers = g.eval inputs' registers' := by
  induction g with
  | const b => rfl
  | port name => exact h name rfl
  | not g ih => rw [eval, eval, ih h]
  | and a b iha ihb | or a b iha ihb | xor a b iha ihb =>
    rw [eval, eval, iha fun name hname => h name (.inl hname),
      ihb fun name hname => h name (.inr hname)]
  | ite c t e ihc iht ihe =>
    rw [eval, eval, ihc fun name hname => h name (.inl hname),
      iht fun name hname => h name (.inr (.inl hname)),
      ihe fun name hname => h name (.inr (.inr hname))]

theorem eval_negate (g : Gate) (inputs registers : PortValues) :
    g.negate.eval inputs registers = !g.eval inputs registers := by
  cases g with
  | not g => rw [negate, eval, Bool.not_not]
  | _ => rfl

theorem hasPort_negate : g.negate.HasPort name ↔ g.HasPort name := by
  cases g <;> rfl

theorem eval_depends_on_ports (g : Gate) :
    (∀ name, name ∈ g.ports ↔ g.HasPort name) ∧
      (∀ inputs registers inputs' registers' : PortValues,
        (∀ name ∈ g.ports,
          PortValues.lookup inputs registers name = PortValues.lookup inputs' registers' name) →
        g.eval inputs registers = g.eval inputs' registers') ∧
      (∀ inputs registers, g.negate.eval inputs registers = !g.eval inputs registers) ∧
      g.negate.ports = g.ports := by
  refine ⟨fun _ => mem_ports, ?_, g.eval_negate, ?_⟩
  · intro inputs registers inputs' registers' h
    exact eval_congr fun name hname => h name (mem_ports.mpr hname)
  · refine FinSet.ext fun name => ?_
    rw [mem_ports, mem_ports, hasPort_negate]

/-- The parity of two ports, if a third one is high. -/
def selectedParity : Gate := ite (port "c") (xor (port "x") (port "r")) (const false)

/-- It makes no difference whether a value is that of an input or of a register, what the register
behind an input holds, and what other ports there are. -/
theorem eval_selectedParity_eq :
    let inputs : PortValues := FinMap.ofList [("c", true), ("x", true)]
    let registers : PortValues := FinMap.ofList [("x", false), ("r", false), ("z", true)]
    let inputs' : PortValues := FinMap.ofList [("r", false), ("y", true)]
    let registers' : PortValues := FinMap.ofList [("c", true), ("r", true), ("x", true)]
    (∀ name ∈ selectedParity.ports,
      PortValues.lookup inputs registers name = PortValues.lookup inputs' registers' name) ∧
      selectedParity.eval inputs registers = selectedParity.eval inputs' registers' := by
  intro inputs registers inputs' registers'
  have hlookup : ∀ name ∈ selectedParity.ports,
      PortValues.lookup inputs registers name = PortValues.lookup inputs' registers' name := by
    intro name hname
    rw [mem_ports] at hname
    obtain rfl | (rfl | rfl) | hname := hname
    · decide
    · decide
    · decide
    · cases hname
  exact ⟨hlookup, (eval_depends_on_ports selectedParity).2.1 _ _ _ _ hlookup⟩

end Gate

end OmegaCheck
