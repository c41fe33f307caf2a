import OmegaCheck.Automaton.Basic
import OmegaCheck.StateSpace
import OmegaCheck.TransitionSystem.Query

/-!
# Verification

The automaton accepts the behaviours that must not occur. Its product with a transition system runs
both together: the automaton reads the label of each state as it is entered. The property holds if
the product has no reachable accepting state on a cycle; otherwise a path to such a state and a
cycle through it make a lasso, which shows how the property is violated.
-/

namespace OmegaCheck

variable {S A P Q : Type} [Element S] [Element A] [Element P] [Element Q]

/-- Why a product cannot be formed. -/
inductive ProductError (S A P Q : Type) where
  /-- The system is asked for the label of a state that it does not have. -/
  | system (e : TransitionSystem.Error S A P)
  /-- A product state is to be labelled with an unknown state of the automaton. -/
  | label (e : TransitionSystem.Error (S × Q) A Q)

def ProductError.message [Literal S] [Literal A] [Literal P] [Literal Q] :
    ProductError S A P Q → String
  | system e => e.message
  | label e => e.message

namespace TransitionSystem

/-- The product states at `s`, entered with the automaton in one of the states `qs`; `read q s` are
the automaton states after `q` when the label of `s` is read. -/
def entries (ts : TransitionSystem S A P) (read : Q → S → List Q) (qs : List Q) (s : S) :
    Except (Error S A P) (List (S × Q)) := do
  ts.checkState s
  return qs.flatMap fun q => (read q s).map fun r => (s, r)

/-- The joint steps from a product state; `steps` are those of the system alone. -/
def productMoves (ts : TransitionSystem S A P) (read : Q → S → List Q) (steps : S → List (A × S))
    (x : S × Q) : Except (Error S A P) (List (A × (S × Q))) := do
  let moves ← (steps x.1).mapM fun m => do
    let entered ← ts.entries read [x.2] m.2
    return entered.map fun y => (m.1, y)
  return moves.flatten

/-- The automaton run along the system. A product state is labelled with its automaton state. -/
def product (ts : TransitionSystem S A P) (aut : BuchiAutomaton Q P) :
    Except (Halt (ProductError S A P Q)) (TransitionSystem (S × Q) A Q) := do
  let steps := ts.successorTable
  let labels := ts.labelTable
  let next := aut.nextTable
  let read (q : Q) (s : S) : List Q := next.values (q, FinSet.ofList (labels.values s))
  let initial ← (ts.initial.toList.mapM (ts.entries read aut.initial.toList)).mapError
    fun e => Halt.failure (ProductError.system e)
  let space ← StateSpace.explore { horizon := ts.states.size * aut.states.size } initial.flatten
    fun x => (ts.productMoves read steps.values x).mapError ProductError.system
  match space.states.toList.find? fun x => x.2 ∉ aut.states with
  | some x => .error (.failure (.label (.invalidLabel x x.2)))
  | none => return space.toSystem none ts.actions aut.states fun x => [x.2]

end TransitionSystem

/-- A path to a state and a cycle through that state, without repeating it at the end. -/
structure Lasso (S : Type) where
  stem : List S
  cycle : List S

namespace Lasso

def stepLines [Literal S] (states : List S) : String :=
  String.join (states.zipIdx.map fun x =>
    "    Step " ++ x.2.repr ++ ": " ++ literal x.1 ++ "\n")

def text [Literal S] (w : Lasso S) : String :=
  "Lasso counterexample (prefix: " ++ w.stem.length.repr ++ " states, cycle: " ++
    w.cycle.length.repr ++ " states):\n  Prefix:\n" ++ stepLines w.stem ++
    "  Cycle (repeats forever):\n" ++ stepLines w.cycle

/-- Whether each state of a list leads to the next by a transition. -/
def isPath (ts : TransitionSystem S A P) : List S → Bool
  | [] => true
  | [_] => true
  | s :: t :: rest => ((ts.outgoing s).image Prod.snd).contains t && isPath ts (t :: rest)

/-- Whether the lasso is an infinite path of the system from an initial state. -/
def isValid (ts : TransitionSystem S A P) (w : Lasso S) : Bool :=
  match w.stem.head?, w.stem.getLast?, w.cycle with
  | some first, some last, c :: rest =>
    first ∈ ts.initial && last = c && isPath ts w.stem && isPath ts (c :: rest ++ [c])
  | _, _, _ => false

end Lasso

inductive Verdict (S : Type) where
  | holds
  | violated (witness : Lasso S)

def Verdict.text [Literal S] : Verdict S → String
  | holds => "Property holds\n"
  | violated w => "Property violated\n" ++ w.text

/-- A shortest cycle through `x`, from `x` up to the state before it closes. -/
def cycleThrough? (bound : Nat) (next : S → List S) (x : S) : Option (List S) :=
  (Search.shortestPath? bound next (next x) x).map fun back => x :: back.takeWhile (· ≠ x)

/-- The lasso of a trail that ends in an accepting product state on a cycle. -/
def lassoAt? (aut : BuchiAutomaton Q P) (bound : Nat) (next : S × Q → List (S × Q))
    (t : Trail (S × Q)) : Option (Lasso S) :=
  if t.last.2 ∈ aut.accepting then
    (cycleThrough? bound next t.last).map fun c => ⟨t.path.map Prod.fst, c.map Prod.fst⟩
  else none

/-- Looks for the nearest accepting product state on a cycle. The sources, and the successors of
each state, may be listed in any order. -/
def Verdict.search (aut : BuchiAutomaton Q P) (bound : Nat) (next : S × Q → List (S × Q))
    (sources : List (S × Q)) : Verdict S :=
  match (Search.trails bound next sources).findSome? (lassoAt? aut bound next) with
  | some w => violated w
  | none => holds

def TransitionSystem.verify (ts : TransitionSystem S A P) (aut : BuchiAutomaton Q P) :
    Except (Halt (ProductError S A P Q)) (Verdict S) := do
  let prod ← ts.product aut
  let steps := prod.successorTable
  let next (x : S × Q) : List (S × Q) := (steps.values x).map Prod.snd
  return .search aut prod.states.size next prod.initial.toList

end OmegaCheck
