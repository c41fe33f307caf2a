import OmegaCheck.Search
import OmegaCheck.TransitionSystem.Basic

/-!
# Questions about transition systems

Labels, outgoing steps and reachability, read off the sets of a system.
-/

namespace OmegaCheck.TransitionSystem

variable {S A P : Type} [Element S] [Element A] [Element P]

def checkState (ts : TransitionSystem S A P) (s : S) : Except (Error S A P) Unit :=
  if s ∈ ts.states then .ok () else .error (.unknownState s)

/-- The propositions that hold in a state. -/
def labelOf (ts : TransitionSystem S A P) (s : S) : FinSet P :=
  ts.labels.filterMap fun l => if l.1 = s then some l.2 else none

theorem mem_labelOf {ts : TransitionSystem S A P} {s : S} {p : P} :
    p ∈ ts.labelOf s ↔ (s, p) ∈ ts.labels := by
  simp [labelOf]

/-- The steps that leave a state, as pairs of an action and a target. -/
def outgoing (ts : TransitionSystem S A P) (s : S) : FinSet (A × S) :=
  ts.transitions.filterMap fun t => if t.source = s then some (t.action, t.target) else none

/-- For each state the steps that leave it. -/
def successorTable (ts : TransitionSystem S A P) : FinMap S (List (A × S)) :=
  FinMap.group (ts.transitions.toList.map fun t => (t.source, t.action, t.target))

theorem mem_successorTable {ts : TransitionSystem S A P} {s t : S} {a : A} :
    (a, t) ∈ ts.successorTable.values s ↔ ⟨s, a, t⟩ ∈ ts.transitions := by
  simp only [successorTable, FinMap.mem_values_group, List.mem_map, FinSet.mem_toList]
  constructor
  · rintro ⟨⟨_, _, _⟩, h, e⟩
    cases e
    exact h
  · exact fun h => ⟨_, h, rfl⟩

/-- For each state the propositions that hold in it. -/
def labelTable (ts : TransitionSystem S A P) : FinMap S (List P) := FinMap.group ts.labels.toList

theorem mem_labelTable {ts : TransitionSystem S A P} {s : S} {p : P} :
    p ∈ ts.labelTable.values s ↔ (s, p) ∈ ts.labels := by
  rw [labelTable, FinMap.mem_values_group, FinSet.mem_toList]

/-- The states reachable from the seeds, which are included even if they are not states. -/
def reachFrom (ts : TransitionSystem S A P) (seeds : List S) : FinSet S :=
  let table := ts.successorTable
  FinSet.ofList (Search.order (seeds.length + ts.transitions.size)
    (fun s => (table.values s).map Prod.snd) seeds)

/-- The states reachable from the initial states. -/
def reach (ts : TransitionSystem S A P) : FinSet S := ts.reachFrom ts.initial.toList

end OmegaCheck.TransitionSystem
