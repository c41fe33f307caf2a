import OmegaCheck.FinMap

/-!
# Automata on infinite words

Automata read one label, a set of atomic propositions, at each step. A Büchi automaton accepts by
visiting accepting states infinitely often; a multi-colour automaton has one set of accepting states
for each colour. Mentioning a state in a transition or as initial or accepting makes it a state.
-/

namespace OmegaCheck

/-- States and transitions, without acceptance. -/
structure Semiautomaton (Q P : Type) [Element Q] [Element P] where
  states : FinSet Q := ∅
  initial : FinSet Q := ∅
  transitions : FinSet (Q × FinSet P × Q) := ∅

namespace Semiautomaton

variable {Q P : Type} [Element Q] [Element P]

def addState (aut : Semiautomaton Q P) (q : Q) : Semiautomaton Q P :=
  { aut with states := aut.states.insert q }

def setInitial (aut : Semiautomaton Q P) (q : Q) : Semiautomaton Q P :=
  { aut with states := aut.states.insert q, initial := aut.initial.insert q }

def addTransition (aut : Semiautomaton Q P) (q : Q) (label : FinSet P) (r : Q) :
    Semiautomaton Q P :=
  { aut with
    states := (aut.states.insert q).insert r
    transitions := aut.transitions.insert (q, label, r) }

/-- The states after `q` when `label` is read. -/
def next (aut : Semiautomaton Q P) (q : Q) (label : FinSet P) : FinSet Q :=
  aut.transitions.filterMap fun t => if t.1 = q ∧ t.2.1 = label then some t.2.2 else none

theorem mem_next {aut : Semiautomaton Q P} {q r : Q} {label : FinSet P} :
    r ∈ aut.next q label ↔ (q, label, r) ∈ aut.transitions := by
  rw [next, FinSet.mem_filterMap]
  constructor
  · rintro ⟨⟨q', label', r'⟩, h, e⟩
    split at e
    · next he =>
      cases e
      obtain ⟨rfl, rfl⟩ := he
      exact h
    · cases e
  · exact fun h => ⟨_, h, if_pos ⟨rfl, rfl⟩⟩

/-- For each state and label the states after it. -/
def nextTable (aut : Semiautomaton Q P) : FinMap (Q × FinSet P) (List Q) :=
  FinMap.group (aut.transitions.toList.map fun t => ((t.1, t.2.1), t.2.2))

theorem mem_nextTable {aut : Semiautomaton Q P} {q r : Q} {label : FinSet P} :
    r ∈ aut.nextTable.values (q, label) ↔ (q, label, r) ∈ aut.transitions := by
  simp only [nextTable, FinMap.mem_values_group, List.mem_map, FinSet.mem_toList]
  constructor
  · rintro ⟨⟨_, _, _⟩, h, e⟩
    cases e
    exact h
  · exact fun h => ⟨_, h, rfl⟩

end Semiautomaton

structure BuchiAutomaton (Q P : Type) [Element Q] [Element P] extends Semiautomaton Q P where
  accepting : FinSet Q := ∅

namespace BuchiAutomaton

variable {Q P : Type} [Element Q] [Element P]

def addState (aut : BuchiAutomaton Q P) (q : Q) : BuchiAutomaton Q P :=
  { aut with toSemiautomaton := aut.toSemiautomaton.addState q }

def setInitial (aut : BuchiAutomaton Q P) (q : Q) : BuchiAutomaton Q P :=
  { aut with toSemiautomaton := aut.toSemiautomaton.setInitial q }

def addTransition (aut : BuchiAutomaton Q P) (q : Q) (label : FinSet P) (r : Q) :
    BuchiAutomaton Q P :=
  { aut with toSemiautomaton := aut.toSemiautomaton.addTransition q label r }

def setAccepting (aut : BuchiAutomaton Q P) (q : Q) : BuchiAutomaton Q P :=
  { aut with
    toSemiautomaton := aut.toSemiautomaton.addState q
    accepting := aut.accepting.insert q }

/-- Adds a transition for every label over `props` that has all of `present` and none of
`absent`. -/
def addRule (aut : BuchiAutomaton Q P) (props : FinSet P) (q : Q) (present absent : List P) (r : Q) :
    BuchiAutomaton Q P :=
  let fits (label : FinSet P) : Bool :=
    present.all label.contains && absent.all fun p => !label.contains p
  (props.powerset.filter fits).foldl (fun aut label => aut.addTransition q label r) aut

end BuchiAutomaton

structure MultiColorAutomaton (Q P : Type) [Element Q] [Element P] extends Semiautomaton Q P where
  /-- The accepting states, each with its colour. -/
  accepting : FinSet (Nat × Q) := ∅

namespace MultiColorAutomaton

variable {Q P : Type} [Element Q] [Element P]

def addState (aut : MultiColorAutomaton Q P) (q : Q) : MultiColorAutomaton Q P :=
  { aut with toSemiautomaton := aut.toSemiautomaton.addState q }

def setInitial (aut : MultiColorAutomaton Q P) (q : Q) : MultiColorAutomaton Q P :=
  { aut with toSemiautomaton := aut.toSemiautomaton.setInitial q }

def addTransition (aut : MultiColorAutomaton Q P) (q : Q) (label : FinSet P) (r : Q) :
    MultiColorAutomaton Q P :=
  { aut with toSemiautomaton := aut.toSemiautomaton.addTransition q label r }

def setAccepting (aut : MultiColorAutomaton Q P) (q : Q) (color : Nat) : MultiColorAutomaton Q P :=
  { aut with
    toSemiautomaton := aut.toSemiautomaton.addState q
    accepting := aut.accepting.insert (color, q) }

/-- The colours in use. -/
def colors (aut : MultiColorAutomaton Q P) : FinSet Nat := aut.accepting.image Prod.fst

/-- The accepting states of a colour. -/
def acceptingOf (aut : MultiColorAutomaton Q P) (color : Nat) : FinSet Q :=
  aut.accepting.filterMap fun x => if x.1 = color then some x.2 else none

end MultiColorAutomaton

end OmegaCheck
