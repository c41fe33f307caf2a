import OmegaCheck.ProgramGraph.Basic

/-!
# Program graphs under edit

A program graph that is edited in place. If an edit is refused, whatever it has written by then stays
written, so an edit has to ask all its questions before it writes.
-/

namespace OmegaCheck.ProgramGraph

/-- A change in place, which may be refused. -/
abbrev Edit (L : Type) [Element L] (A : Type := String) [Element A] : Type :=
  EStateM (Error L) (ProgramGraph L A) Unit

namespace Edit

variable {L A : Type} [Element L] [Element A]

def setName (name : String) : Edit L A := modify fun pg => { pg with name := some name }

def addLocation (l : L) : Edit L A :=
  modify fun pg => { pg with locations := pg.locations.insert l }

def addLocations (l : List L) : Edit L A :=
  modify fun pg => { pg with locations := pg.locations.insertAll l }

/-- Removes a location that is neither initial nor an end of an edge; an unknown one is no error. -/
def removeLocation (l : L) : Edit L A := do
  let pg ← get
  if l ∈ pg.initial then throw (.locationInUse l .initialLocations)
  else if pg.edges.toList.any fun e => e.source = l || e.target = l then
    throw (.locationInUse l .transitions)
  else set { pg with locations := pg.locations.erase l }

def addInitial (l : L) : Edit L A := do
  let pg ← get
  if l ∉ pg.locations then throw (.unknownLocation l)
  else set { pg with initial := pg.initial.insert l }

def removeInitial (l : L) : Edit L A :=
  modify fun pg => { pg with initial := pg.initial.erase l }

def addInitialization (actions : List String) : Edit L A :=
  modify fun pg => { pg with initializations := pg.initializations.insert actions }

def removeInitialization (actions : List String) : Edit L A :=
  modify fun pg => { pg with initializations := pg.initializations.erase actions }

def addEdge (e : Edge L A) : Edit L A := do
  let pg ← get
  if e.source ∉ pg.locations then throw (.unknownLocation e.source)
  else if e.target ∉ pg.locations then throw (.unknownLocation e.target)
  else set { pg with edges := pg.edges.insert e }

def removeEdge (e : Edge L A) : Edit L A :=
  modify fun pg => { pg with edges := pg.edges.erase e }

end Edit

end OmegaCheck.ProgramGraph
