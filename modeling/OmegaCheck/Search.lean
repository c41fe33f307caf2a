import OmegaCheck.FinMap

/-!
# Breadth-first search

The search keeps a shortest trail to every state it meets and lists the trails in the order in which
their last states are met, the nearest first. It expands at most `bound` states; with a bound that
is no less than the number of reachable states the list is complete. A search for one target ends
when it comes to it. It keeps only the origin of each state that it meets, and tells the path from
these.
-/

namespace OmegaCheck

/-- A path through states, told from its end. -/
structure Trail (S : Type) where
  last : S
  /-- The states before the last one, the latest first. -/
  earlier : List S

namespace Trail

variable {S : Type}

def start (s : S) : Trail S := ⟨s, []⟩

def extend (t : Trail S) (s : S) : Trail S := ⟨s, t.last :: t.earlier⟩

/-- The states in the order in which they are passed. -/
def path (t : Trail S) : List S := (t.last :: t.earlier).reverse

end Trail

namespace Search

variable {S : Type} [Element S]

/-- Adds the states of a list to those already seen, and lists the new ones, each once. -/
def meet (seen : FinSet S) : List S → FinSet S × List S
  | [] => (seen, [])
  | s :: rest =>
    if s ∈ seen then meet seen rest
    else
      let (seen, new) := meet (seen.insert s) rest
      (seen, s :: new)

/-- The trails still to be listed, with the trails in `queue` next. -/
def expand (next : S → List S) : Nat → FinSet S → List (Trail S) → List (Trail S)
  | 0, _, _ => []
  | _ + 1, _, [] => []
  | bound + 1, seen, trail :: queue =>
    let (seen, new) := meet seen (next trail.last)
    trail :: expand next bound seen (queue ++ new.map trail.extend)

/-- One shortest trail from the sources to each reachable state. -/
def trails (bound : Nat) (next : S → List S) (sources : List S) : List (Trail S) :=
  let (seen, new) := meet ∅ sources
  expand next bound seen (new.map Trail.start)

/-- The reachable states, the nearest first. -/
def order (bound : Nat) (next : S → List S) (sources : List S) : List S :=
  (trails bound next sources).map Trail.last

/-- The states that were met, each with the state it was met from; the sources have none. -/
abbrev Origins (S : Type) [Element S] := FinMap S (Option S)

/-- Adds the states of a list to those already met, and lists the new ones, each once. -/
def record (origin : Option S) (origins : Origins S) : List S → Origins S × List S
  | [] => (origins, [])
  | s :: rest =>
    if (origins.get? s).isSome then record origin origins rest
    else
      let (origins, new) := record origin (origins.insert s origin) rest
      (origins, s :: new)

/-- The states from `s` back to a source, as far as the first `length` of them. -/
def wayBack (origins : Origins S) (s : S) : Nat → List S
  | 0 => []
  | length + 1 =>
    match origins.get? s with
    | some (some origin) => s :: wayBack origins origin length
    | _ => [s]

/-- Looks for the target, with the states in `queue` next. No path has more states than were met. -/
def seek (next : S → List S) (target : S) : Nat → Origins S → List S → Option (List S)
  | 0, _, _ => none
  | _ + 1, _, [] => none
  | bound + 1, origins, s :: queue =>
    if s = target then some (wayBack origins s origins.size).reverse
    else
      let (origins, new) := record (some s) origins (next s)
      seek next target bound origins (queue ++ new)

/-- A shortest path from one of the sources to the target. -/
def shortestPath? (bound : Nat) (next : S → List S) (sources : List S) (target : S) :
    Option (List S) :=
  let (origins, new) := record none ∅ sources
  seek next target bound origins new

end Search

end OmegaCheck
