import OmegaCheck.Program.Parser
import OmegaCheck.ProgramGraph.Basic

/-!
# Program graphs of statements

A statement is turned into a program graph whose locations are the texts of what remains to be
executed; the empty text is the end. The edges of a statement are drafted from those of its parts.
An edge out of the entry of a nested statement has no source of its own: the statement around it
puts the edge at its own location, behind the guard of an option if there is one.
-/

namespace OmegaCheck

/-- An edge under construction. Without a source it leaves the entry of a nested statement, and
without a guard no option has guarded it yet. -/
structure Draft where
  source : Option String
  guard : Option String
  action : String
  target : String

namespace Draft

/-- The location that is left of `location` when `rest` is to follow. -/
def continued (location rest : String) : String :=
  if location = "" then rest else Stmt.seqText location rest

def continueWith (rest : String) (d : Draft) : Draft :=
  { d with
    source := d.source.map fun source => Stmt.seqText source rest
    target := continued d.target rest }

/-- Puts the guard of an option in front of the guard that is there. -/
def conjunction (guard : String) : Option String → String
  | none => "(" ++ guard ++ ")"
  | some inner => "(" ++ guard ++ ") && (" ++ inner ++ ")"

/-- An option guards the edges out of the entry of its body. -/
def guardedBy (guard : String) (d : Draft) : Draft :=
  match d.source with
  | some _ => d
  | none => { d with guard := some (conjunction guard d.guard) }

/-- Puts an edge out of an entry at a location, unless that is an entry as well. -/
def enteredAt (nested : Bool) (location : String) (d : Draft) : Draft :=
  match d.source with
  | some _ => d
  | none => { d with source := if nested then none else some location }

/-- The edge in the body of a loop. One that enters a nested loop is also taken on every later
iteration, at the location of the loop. -/
def looped (nested : Bool) (location : String) (d : Draft) : List Draft :=
  let edge := (d.continueWith location).enteredAt nested location
  if d.source.isNone && nested then [{ edge with source := some location }, edge] else [edge]

/-- The edge, if it has a source. -/
def edge? (d : Draft) : Option (Edge String) :=
  d.source.map fun source => ⟨source, d.guard.getD "true", d.action, d.target⟩

end Draft

namespace Stmt

/-- The disjunction of the guards, each in parentheses. -/
def guardsText : List Expr → String
  | [] => "false"
  | guard :: rest =>
    rest.foldl (fun acc g => acc ++ " || (" ++ g.text ++ ")") ("(" ++ guard.text ++ ")")

/-- When a loop ends: no guard holds. -/
def exitText (guards : List Expr) : String := "!(" ++ guardsText guards ++ ")"

mutual
/-- The edges of a statement; those out of the entry of a nested one have no source. -/
def drafts (nested : Bool) : Stmt → List Draft
  | basic action => [⟨if nested then none else some action.text, none, action.text, ""⟩]
  | seq first second =>
    (drafts nested first).map (Draft.continueWith second.text) ++ drafts false second
  | choice options => (optionDrafts options).map (Draft.enteredAt nested (choice options).text)
  | loop options =>
    let location := (loop options).text
    let exit : Draft := ⟨none, some (exitText (options.map Prod.fst)), "", ""⟩
    (optionDrafts options).flatMap (Draft.looped nested location) ++
      (if nested then [exit] else []) ++ [{ exit with source := some location }]

def optionDrafts : List (Expr × Stmt) → List Draft
  | [] => []
  | (guard, body) :: rest =>
    (drafts true body).map (Draft.guardedBy guard.text) ++ optionDrafts rest
end

/-- The program graph whose only initial location is the text of the statement. -/
def compile (s : Stmt) : Except (ProgramGraph.Error String) (ProgramGraph String) := do
  let drafts := s.drafts false
  let located := ProgramGraph.empty.addLocations
    (s.text :: drafts.flatMap fun d => d.source.toList ++ [d.target])
  let started ← located.addInitial s.text
  (drafts.filterMap Draft.edge?).foldlM ProgramGraph.addEdge started

end Stmt

namespace ProgramGraph

/-- Why a source has no program graph. -/
inductive SourceError where
  | notUtf8
  | parse (e : ParseError)
  | graph (e : Error String)

def SourceError.message : SourceError → String
  | notUtf8 => "I/O error: stream did not contain valid UTF-8"
  | parse e => e.message
  | graph e => e.message

def ofSource (source : String) : Except SourceError (ProgramGraph String) := do
  let s ← (Stmt.parse source).mapError .parse
  s.compile.mapError .graph

/-- The program graph of a source in UTF-8. -/
def ofBytes (source : ByteArray) : Except SourceError (ProgramGraph String) :=
  match String.fromUTF8? source with
  | some text => ofSource text
  | none => .error .notUtf8

end ProgramGraph

end OmegaCheck
