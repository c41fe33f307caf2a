import OmegaCheck.ProgramGraph.Basic
import OmegaCheck.TransitionSystem.Query

/-!
# Diagrams

Transition systems and program graphs as text for a graph drawing program. Nodes are numbered in the
order of their literals, so that equal models have equal texts. Initial nodes have a shape of their
own and an edge from an invisible point.
-/

namespace OmegaCheck

/-- What a diagram shows. -/
structure DotStyle where
  shape : String := "ellipse"
  initialShape : String := "doublecircle"
  showLabels : Bool := true
  showActions : Bool := true

namespace Dot

/-- The text with `replacement` for each character `c`. -/
def replaced (c : Char) (replacement : String) (s : String) : String :=
  String.ofList (s.toList.flatMap fun d => if d = c then replacement.toList else [d])

/-- A text between the quotes of an attribute. The backslashes come first: those that escape quotes
are not escaped again. -/
def escape (s : String) : String := replaced '"' "\\\"" (replaced '\\' "\\\\" s)

/-- The members of a set in the order of their keys, as diagrams list them. -/
def ordered {α β : Type} [Element α] [Element β] (key : α → β) (s : FinSet α) : List α :=
  (s.image fun a => (key a, a)).toList.map Prod.snd

/-- The numbers of the nodes. -/
def numbering {α : Type} [Element α] (nodes : List α) : FinMap α Nat := FinMap.ofList nodes.zipIdx

def nodeText (style : DotStyle) (isInitial : Bool) (i : Nat) (label : String) : String :=
  let n := i.repr
  if isInitial then
    "s" ++ n ++ " [shape=" ++ style.initialShape ++ ", label=\"" ++ label ++ "\"];\n" ++
      "init" ++ n ++ " [shape=point, style=invis];\n" ++ "init" ++ n ++ " -> s" ++ n ++ ";\n"
  else "s" ++ n ++ " [label=\"" ++ label ++ "\"];\n"

def edgeText (style : DotStyle) (i j : Nat) (label : String) : String :=
  "s" ++ i.repr ++ " -> s" ++ j.repr ++
    (if style.showActions then " [label=\"" ++ escape label ++ "\"]" else "") ++ ";\n"

/-- All edges in the order of their ends and labels. -/
def edgesText {ε : Type} [Element ε] (style : DotStyle) (edges : FinSet ε)
    (ends : ε → Option (Nat × Nat)) (label : ε → String) : String :=
  let keyed := edges.filterMap fun e => (ends e).map fun x => ((x.1, x.2, label e), e)
  String.join (keyed.toList.map fun x => edgeText style x.1.1 x.1.2.1 x.1.2.2)

def graphText (style : DotStyle) (title : Option String) (nodes edges : String) : String :=
  let head := match title with
    | some t => "label=\"" ++ t ++ "\";\n"
    | none => ""
  "digraph \x7b\n" ++ head ++ "node [shape=" ++ style.shape ++ "];\n" ++ nodes ++ edges ++ "\x7d\n"

end Dot

open Dot

/-- The diagram of a transition system; `actionText` writes the actions. -/
def TransitionSystem.dot {S A P : Type} [Element S] [Element A] [Element P] [Literal S] [Literal P]
    (style : DotStyle) (actionText : A → String) (ts : TransitionSystem S A P) : String :=
  let nodes := ordered literal ts.states
  let number := numbering nodes
  let labels := ts.labelTable
  let label (s : S) : String :=
    escape (literal s) ++
      (if style.showLabels then
        "\\n\x7b" ++ escape (Text.separated ", " ((labels.values s).map literal)) ++ "\x7d"
      else "")
  let nodeTexts := nodes.zipIdx.map fun x => nodeText style (x.1 ∈ ts.initial) x.2 (label x.1)
  let ends (t : Transition S A) : Option (Nat × Nat) := do
    return (← number.get? t.source, ← number.get? t.target)
  graphText style (ts.name.map escape) (String.join nodeTexts)
    (edgesText style ts.transitions ends fun t => actionText t.action)

/-- The title of a program graph's diagram: its name, and its initializations if labels are shown. -/
def ProgramGraph.dotTitle? {L A : Type} [Element L] [Element A] (style : DotStyle)
    (pg : ProgramGraph L A) : Option String :=
  if pg.initializations.isEmpty then pg.name.map escape
  else if style.showLabels then
    let named := match pg.name with
      | some name => name ++ ": "
      | none => ""
    let inits := (ordered (Text.separated "; ") pg.initializations).map (Text.separated "; ")
    some (escape named ++ "init " ++ escape (Text.separated " | " inits))
  else none

def ProgramGraph.dot {L A : Type} [Element L] [Element A] [Literal L] [ToString A]
    (style : DotStyle) (pg : ProgramGraph L A) : String :=
  let nodes := ordered literal pg.locations
  let number := numbering nodes
  let nodeTexts := nodes.zipIdx.map fun x =>
    nodeText style (x.1 ∈ pg.initial) x.2 (escape (literal x.1))
  let ends (e : Edge L A) : Option (Nat × Nat) := do
    return (← number.get? e.source, ← number.get? e.target)
  graphText style (pg.dotTitle? style) (String.join nodeTexts)
    (edgesText style pg.edges ends fun e => e.guard ++ " / " ++ e.actionText)

end OmegaCheck
