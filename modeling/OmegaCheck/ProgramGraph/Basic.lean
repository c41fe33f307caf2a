import OmegaCheck.TransitionSystem.Basic

/-!
# Program graphs

A program graph describes a process before its data is unfolded: locations joined by edges with a
guard and an action. Guards are texts, and so are actions unless another type is named. Each
initialization is a list of the texts of assignments that make one initial memory.
-/

namespace OmegaCheck

structure Edge (L : Type) (A : Type := String) where
  source : L
  guard : String
  action : A
  target : L

namespace Edge

variable {L A : Type}

/-- Edges are ordered by source, guard, action and target. -/
instance [Element L] [Element A] : Element (Edge L A) :=
  Element.ofInjective (fun e => (e.source, e.guard, e.action, e.target)) fun e f h => by
    cases e; cases f; cases h; rfl

def text [Literal L] [Literal A] (e : Edge L A) : String :=
  literal e.source ++ " --[" ++ e.guard ++ "] " ++ literal e.action ++ "--> " ++ literal e.target

/-- The text of the action, which is what evaluators read and diagrams show. -/
abbrev actionText [ToString A] (e : Edge L A) : String := toString e.action

end Edge

structure ProgramGraph (L : Type) [Element L] (A : Type := String) [Element A] where
  name : Option String := none
  locations : FinSet L := ∅
  initial : FinSet L := ∅
  initializations : FinSet (List String) := ∅
  edges : FinSet (Edge L A) := ∅
  deriving DecidableEq

namespace ProgramGraph

/-- Why a change is refused. -/
inductive Error (L : Type) where
  | unknownLocation (l : L)
  | locationInUse (l : L) (part : ModelPart)

def Error.message {L : Type} [Literal L] : Error L → String
  | unknownLocation l => "location " ++ literal l ++ " not found"
  | locationInUse l part => TransitionSystem.inUseText "location" (literal l) part

variable {L A : Type} [Element L] [Element A]

def empty : ProgramGraph L A := {}

instance : Inhabited (ProgramGraph L A) := ⟨empty⟩

def setName (pg : ProgramGraph L A) (name : String) : ProgramGraph L A :=
  { pg with name := some name }

def addLocation (pg : ProgramGraph L A) (l : L) : ProgramGraph L A :=
  { pg with locations := pg.locations.insert l }

def addLocations (pg : ProgramGraph L A) (l : List L) : ProgramGraph L A := l.foldl addLocation pg

/-- Removes a location that is neither initial nor an end of an edge; an unknown one is no error. -/
def removeLocation (pg : ProgramGraph L A) (l : L) : Except (Error L) (ProgramGraph L A) :=
  if l ∈ pg.initial then .error (.locationInUse l .initialLocations)
  else if pg.edges.toList.any fun e => e.source = l || e.target = l then
    .error (.locationInUse l .transitions)
  else .ok { pg with locations := pg.locations.erase l }

def addInitial (pg : ProgramGraph L A) (l : L) : Except (Error L) (ProgramGraph L A) :=
  if l ∈ pg.locations then .ok { pg with initial := pg.initial.insert l }
  else .error (.unknownLocation l)

def removeInitial (pg : ProgramGraph L A) (l : L) : ProgramGraph L A :=
  { pg with initial := pg.initial.erase l }

def addInitialization (pg : ProgramGraph L A) (actions : List String) : ProgramGraph L A :=
  { pg with initializations := pg.initializations.insert actions }

def removeInitialization (pg : ProgramGraph L A) (actions : List String) : ProgramGraph L A :=
  { pg with initializations := pg.initializations.erase actions }

def addEdge (pg : ProgramGraph L A) (e : Edge L A) : Except (Error L) (ProgramGraph L A) :=
  if e.source ∉ pg.locations then .error (.unknownLocation e.source)
  else if e.target ∉ pg.locations then .error (.unknownLocation e.target)
  else .ok { pg with edges := pg.edges.insert e }

def removeEdge (pg : ProgramGraph L A) (e : Edge L A) : ProgramGraph L A :=
  { pg with edges := pg.edges.erase e }

/-- The edges that leave a location. -/
def edgesFrom (pg : ProgramGraph L A) (l : L) : List (Edge L A) :=
  pg.edges.toList.filter fun e => e.source = l

/-- The graph with its locations renamed. -/
def map {M : Type} [Element M] (f : L → M) (pg : ProgramGraph L A) : ProgramGraph M A where
  name := pg.name
  locations := pg.locations.image f
  initial := pg.initial.image f
  initializations := pg.initializations
  edges := pg.edges.image fun e => ⟨f e.source, e.guard, e.action, f e.target⟩

end ProgramGraph

end OmegaCheck
