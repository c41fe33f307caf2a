import OmegaCheck.Literal

/-!
# Memories

A memory binds names to cells. A cell holds an integer (a variable) or a queue of integers (a
channel). The text of each binding serves as an atomic proposition about the memory.
-/

namespace OmegaCheck

inductive Cell where
  | int (n : Int64)
  /-- The messages of a channel, the oldest one first. -/
  | queue (messages : List Int64)
  deriving DecidableEq

namespace Cell

def toSum : Cell → Int64 ⊕ List Int64
  | int n => .inl n
  | queue messages => .inr messages

theorem toSum_injective (c d : Cell) (h : c.toSum = d.toSum) : c = d := by
  cases c <;> cases d <;> cases h <;> rfl

/-- Integers come before queues. -/
instance : Element Cell := Element.ofInjective toSum toSum_injective

def messagesText (messages : List Int64) : String :=
  Literal.bracketed (messages.map fun n => Text.decimal n.toInt)

def text : Cell → String
  | int n => Text.decimal n.toInt
  | queue messages => messagesText messages

instance : Literal Cell where
  literal
    | int n => "Int(" ++ Text.decimal n.toInt ++ ")"
    | queue messages => "Queue(" ++ messagesText messages ++ ")"

end Cell

structure Memory where
  cells : FinMap String Cell

namespace Memory

instance : Element Memory :=
  Element.ofInjective cells fun m n h => by cases m; cases n; cases h; rfl

def empty : Memory := ⟨∅⟩

instance : EmptyCollection Memory := ⟨empty⟩

instance : Inhabited Memory := ⟨∅⟩

def get? (m : Memory) (name : String) : Option Cell := m.cells.get? name

/-- Binds `name` in place of an earlier cell of that name. -/
def set (m : Memory) (name : String) (cell : Cell) : Memory := ⟨m.cells.insert name cell⟩

theorem get?_set (m : Memory) (name other : String) (cell : Cell) :
    (m.set name cell).get? other = if other = name then some cell else m.get? other :=
  FinMap.get?_insert m.cells name other cell

theorem ext {m n : Memory} (h : ∀ name, m.get? name = n.get? name) : m = n :=
  congrArg mk (FinMap.ext h)

def size (m : Memory) : Nat := m.cells.size

def isEmpty (m : Memory) : Bool := m.cells.isEmpty

/-- One proposition for each binding, in the order of the names. -/
def propositions (m : Memory) : List String :=
  m.cells.toList.map fun b => b.1 ++ " = " ++ b.2.text

def text (m : Memory) : String := Literal.braced m.propositions

instance : Literal Memory := ⟨fun m => "Memory \x7b bindings: " ++ literal m.cells ++ " \x7d"⟩

end Memory

end OmegaCheck
