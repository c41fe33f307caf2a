import OmegaCheck.ProgramGraph.Edit

/-!
# Interleaving of program graphs

Two program graphs side by side over one memory: each edge of one graph is taken while the other
stays where it is. Initializations run one after the other, the first graph's first.

`interleaveChecked` puts the composite graph together part by part; this can be refused if a graph
refers to locations that it does not have. `interleave` is what comes out where nothing is refused.
-/

namespace OmegaCheck.ProgramGraph

variable {L M A : Type} [Element L] [Element M] [Element A]

/-- The initializations, or the empty one if there is none. -/
def initializationsOrEmpty (inits : FinSet (List String)) : FinSet (List String) :=
  if inits.isEmpty then FinSet.ofList [[]] else inits

/-- All ways to run an initialization of each graph, if one of the graphs has any. -/
def jointInitializations (inits : FinSet (List String)) (others : FinSet (List String)) :
    FinSet (List String) :=
  if inits.isEmpty && others.isEmpty then ∅
  else ((initializationsOrEmpty inits).product (initializationsOrEmpty others)).image
    fun x => x.1 ++ x.2

def interleave (pg : ProgramGraph L A) (qg : ProgramGraph M A) : ProgramGraph (L × M) A where
  locations := pg.locations.product qg.locations
  initial := pg.initial.product qg.initial
  initializations := jointInitializations pg.initializations qg.initializations
  edges :=
    (pg.edges.flatMap fun e => qg.locations.toList.map fun m =>
      ⟨(e.source, m), e.guard, e.action, (e.target, m)⟩) ∪
    (qg.edges.flatMap fun e => pg.locations.toList.map fun l =>
      ⟨(l, e.source), e.guard, e.action, (l, e.target)⟩)

/-- Adds the two graphs side by side to a graph. -/
def addInterleaving (pg : ProgramGraph L A) (qg : ProgramGraph M A) : Edit (L × M) A := do
  Edit.addLocations (pg.locations.product qg.locations).toList
  (pg.initial.product qg.initial).toList.forM Edit.addInitial
  -- Where one graph has no initializations, those of the other graph are taken as they are.
  (((pg.initializations.product qg.initializations).toList.map fun x => x.1 ++ x.2) ++
    (if pg.initializations.isEmpty then qg.initializations.toList else []) ++
    (if qg.initializations.isEmpty then pg.initializations.toList else [])).forM
    Edit.addInitialization
  (pg.edges.toList.flatMap fun e => qg.locations.toList.map fun m =>
    ⟨(e.source, m), e.guard, e.action, (e.target, m)⟩).forM Edit.addEdge
  (qg.edges.toList.flatMap fun e => pg.locations.toList.map fun l =>
    ⟨(l, e.source), e.guard, e.action, (l, e.target)⟩).forM Edit.addEdge

def interleaveChecked (pg : ProgramGraph L A) (qg : ProgramGraph M A) :
    Except (Error (L × M)) (ProgramGraph (L × M) A) :=
  match pg.addInterleaving qg empty with
  | .ok _ joint => .ok joint
  | .error e _ => .error e

end OmegaCheck.ProgramGraph
