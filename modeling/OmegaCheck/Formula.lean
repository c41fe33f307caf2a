import OmegaCheck.Automaton.Basic

/-!
# Formulas of linear temporal logic

Formulas over atomic propositions, with negation, conjunction, next and until as primitives. Chains
of conjunctions are written without parentheses; every other binary operand has them. Formulas are
not turned into automata here: automata are written down by hand.
-/

namespace OmegaCheck

inductive Formula (P : Type) where
  | atom (p : P)
  | true
  | not (f : Formula P)
  | and (f g : Formula P)
  | next (f : Formula P)
  /-- `f` holds at every step before one at which `g` holds. -/
  | holdsUntil (f g : Formula P)
  deriving DecidableEq

namespace Formula

variable {P : Type}

def or (f g : Formula P) : Formula P := not (and (not f) (not g))

def eventually (f : Formula P) : Formula P := holdsUntil true f

def always (f : Formula P) : Formula P := not (eventually (not f))

/-- The length of the longest branch. -/
def depth : Formula P → Nat
  | atom _ | true => 1
  | not f | next f => 1 + f.depth
  | and f g | holdsUntil f g => 1 + max f.depth g.depth

/-- The atoms from left to right, repeated ones included. -/
def atoms : Formula P → List P
  | atom p => [p]
  | true => []
  | not f | next f => f.atoms
  | and f g | holdsUntil f g => f.atoms ++ g.atoms

/-- How the outermost operator asks for parentheses. -/
inductive Shape where
  | closed
  | conjunction
  | temporal
  deriving DecidableEq

def shape : Formula P → Shape
  | and _ _ => .conjunction
  | holdsUntil _ _ => .temporal
  | _ => .closed

def operandText (parenthesized : Bool) (text : String) : String :=
  if parenthesized then "(" ++ text ++ ")" else text

def text (atomText : P → String) : Formula P → String
  | atom p => atomText p
  | true => "true"
  | not f => "~" ++ operandText (f.shape ≠ .closed) (f.text atomText)
  | next f => "()" ++ operandText (f.shape ≠ .closed) (f.text atomText)
  | and f g =>
    operandText (f.shape = .temporal) (f.text atomText) ++ " /\\ " ++
      operandText (g.shape = .temporal) (g.text atomText)
  | holdsUntil f g =>
    operandText (f.shape ≠ .closed) (f.text atomText) ++ " U " ++
      operandText (g.shape ≠ .closed) (g.text atomText)

end Formula

/-- An operation that is named but not provided. -/
inductive Unsupported where
  | formulaToAutomaton
  | degeneralization
  deriving DecidableEq

def Unsupported.message : Unsupported → String
  | formulaToAutomaton => "unsupported operation: translation of LTL formulas into automata"
  | degeneralization => "unsupported operation: degeneralization of multi-color automata"

def Formula.toAutomaton {P : Type} [Element P] (_ : Formula P) :
    Except Unsupported (BuchiAutomaton Nat P) :=
  .error .formulaToAutomaton

def MultiColorAutomaton.toBuchi {Q P : Type} [Element Q] [Element P] (_ : MultiColorAutomaton Q P) :
    Except Unsupported (BuchiAutomaton (Q × Nat) P) :=
  .error .degeneralization

end OmegaCheck
