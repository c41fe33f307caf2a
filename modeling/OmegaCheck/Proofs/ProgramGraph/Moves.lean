import OmegaCheck.ProgramGraph.Compilation
import OmegaCheck.Proofs.Program.Printing
import Mathlib.Data.List.Basic

/-!
# First and later edges

The edges of a statement in two parts: the moves out of its own location, and the edges that leave
later locations. The drafts of a nested statement hold both apart, the moves as the drafts without a
source. The drafts of a whole statement have sources, and are its first and its later edges.
-/

namespace OmegaCheck

/-- One way to leave the location of a statement. A move that no option guards has no guard yet. -/
structure Move where
  guard : Option String
  action : String
  target : String

namespace Move

def continueWith (rest : String) (m : Move) : Move :=
  { m with target := Draft.continued m.target rest }

def guardedBy (guard : String) (m : Move) : Move :=
  { m with guard := some (Draft.conjunction guard m.guard) }

def fromLocation (location : String) (m : Move) : Edge String :=
  ⟨location, m.guard.getD "true", m.action, m.target⟩

end Move

/-- The edge inside a statement that `rest` follows. -/
def Edge.continueWith (rest : String) (e : Edge String) : Edge String :=
  { e with source := Stmt.seqText e.source rest, target := Draft.continued e.target rest }

namespace Stmt

/-- The move that ends a loop. -/
def exitMove (options : List (Expr × Stmt)) : Move :=
  ⟨some (exitText (options.map Prod.fst)), "", ""⟩

mutual
/-- The moves out of a statement's own location. -/
def moves : Stmt → List Move
  | basic action => [⟨none, action.text, ""⟩]
  | seq first second => (moves first).map (Move.continueWith second.text)
  | choice options => optionMoves options
  | loop options =>
    (optionMoves options).map (Move.continueWith (loop options).text) ++ [exitMove options]

def optionMoves : List (Expr × Stmt) → List Move
  | [] => []
  | (guard, body) :: rest => (moves body).map (Move.guardedBy guard.text) ++ optionMoves rest
end

/-- The edges out of a statement's own location. -/
def firstEdges (s : Stmt) : List (Edge String) := s.moves.map (Move.fromLocation s.text)

mutual
/-- The edges that leave the locations met after the first step. A loop is one of these itself. -/
def laterEdges : Stmt → List (Edge String)
  | basic _ => []
  | seq first second =>
    (laterEdges first).map (Edge.continueWith second.text) ++ firstEdges second ++ laterEdges second
  | choice options => laterOptionEdges options
  | loop options =>
    (laterOptionEdges options).map (Edge.continueWith (loop options).text) ++
      firstEdges (loop options)

def laterOptionEdges : List (Expr × Stmt) → List (Edge String)
  | [] => []
  | (_, body) :: rest => laterEdges body ++ laterOptionEdges rest
end

theorem firstEdges_seq (s t : Stmt) :
    (seq s t).firstEdges = s.firstEdges.map (Edge.continueWith t.text) := by
  simp only [firstEdges, moves, List.map_map]
  rfl

end Stmt

namespace Draft

/-- The move of a draft without a source. -/
def move? (d : Draft) : Option Move :=
  match d.source with
  | some _ => none
  | none => some ⟨d.guard, d.action, d.target⟩

section Parts

variable (nested : Bool) (location rest guard : String) (d : Draft)

theorem edge?_continueWith :
    (d.continueWith rest).edge? = d.edge?.map (Edge.continueWith rest) := by
  cases hd : d.source <;> simp [edge?, continueWith, hd, Edge.continueWith]

theorem move?_continueWith :
    (d.continueWith rest).move? = d.move?.map (Move.continueWith rest) := by
  cases hd : d.source <;> simp [move?, continueWith, hd, Move.continueWith]

theorem edge?_guardedBy : (d.guardedBy guard).edge? = d.edge? := by
  cases hd : d.source <;> simp [edge?, guardedBy, hd]

theorem move?_guardedBy : (d.guardedBy guard).move? = d.move?.map (Move.guardedBy guard) := by
  cases hd : d.source <;> simp [move?, guardedBy, hd, Move.guardedBy]

theorem move?_enteredAt :
    (d.enteredAt nested location).move? = if nested then d.move? else none := by
  cases hd : d.source <;> cases nested <;> simp [move?, enteredAt, hd]

theorem filterMap_move?_looped : (d.looped nested location).filterMap move? =
    if nested then (d.move?.map (Move.continueWith location)).toList else [] := by
  cases hd : d.source <;> cases nested <;>
    simp [looped, hd, move?, continueWith, enteredAt, Move.continueWith, List.filterMap_cons]

end Parts

section Lists

variable {nested : Bool} {location : String} {ds : List Draft} {e : Edge String}

theorem mem_edges_enteredAt :
    e ∈ (ds.map (enteredAt nested location)).filterMap edge? ↔
      e ∈ ds.filterMap edge? ∨
        nested = false ∧ e ∈ (ds.filterMap move?).map (Move.fromLocation location) := by
  have hdraft : ∀ d : Draft, (d.enteredAt nested location).edge? = some e ↔ d.edge? = some e ∨
      nested = false ∧ d.move?.map (Move.fromLocation location) = some e := by
    intro d
    cases hd : d.source <;> cases nested <;>
      simp [edge?, move?, enteredAt, hd, Move.fromLocation]
  rw [List.map_filterMap, List.filterMap_map]
  simp only [List.mem_filterMap, Function.comp_apply, hdraft]
  grind

/-- In a loop, a draft without a source becomes an edge at the location of the loop. -/
theorem mem_edges_looped :
    e ∈ (ds.flatMap (looped nested location)).filterMap edge? ↔
      e ∈ (ds.filterMap edge?).map (Edge.continueWith location) ∨
        e ∈ ((ds.filterMap move?).map (Move.continueWith location)).map
          (Move.fromLocation location) := by
  have hdraft : ∀ d : Draft, e ∈ (d.looped nested location).filterMap edge? ↔
      d.edge?.map (Edge.continueWith location) = some e ∨
        d.move?.map (Move.fromLocation location ∘ Move.continueWith location) = some e := by
    intro d
    cases hd : d.source <;> cases nested <;>
      simp [looped, hd, edge?, move?, continueWith, enteredAt, Edge.continueWith,
        Move.fromLocation, Move.continueWith, eq_comm]
  rw [List.filterMap_flatMap, List.map_map, List.map_filterMap, List.map_filterMap]
  simp only [List.mem_flatMap, hdraft, List.mem_filterMap]
  grind

end Lists

end Draft

namespace Stmt

theorem mem_optionMoves {os : List (Expr × Stmt)} {m : Move} :
    m ∈ optionMoves os ↔ ∃ o ∈ os, ∃ k ∈ moves o.2, k.guardedBy o.1.text = m := by
  induction os with
  | nil => simp [optionMoves]
  | cons o os ih => simp [optionMoves, ih]

theorem mem_laterOptionEdges {os : List (Expr × Stmt)} {e : Edge String} :
    e ∈ laterOptionEdges os ↔ ∃ o ∈ os, e ∈ laterEdges o.2 := by
  induction os with
  | nil => simp [laterOptionEdges]
  | cons o os ih => simp [laterOptionEdges, ih]

section Drafts

variable {os : List (Expr × Stmt)} {e : Edge String}

theorem filterMap_move?_optionDrafts
    (h : ∀ o ∈ os, (drafts true o.2).filterMap Draft.move? = o.2.moves) :
    (optionDrafts os).filterMap Draft.move? = optionMoves os := by
  induction os with
  | nil => rfl
  | cons o os ih =>
    rw [List.forall_mem_cons] at h
    rw [optionDrafts, List.filterMap_append, List.filterMap_map, ih h.2, optionMoves, ← h.1,
      List.map_filterMap]
    simp only [Function.comp_def, Draft.move?_guardedBy]

theorem mem_edges_optionDrafts
    (h : ∀ o ∈ os, e ∈ (drafts true o.2).filterMap Draft.edge? ↔ e ∈ o.2.laterEdges) :
    e ∈ (optionDrafts os).filterMap Draft.edge? ↔ e ∈ laterOptionEdges os := by
  induction os with
  | nil => rfl
  | cons o os ih =>
    rw [List.forall_mem_cons] at h
    have hbody : ((drafts true o.2).map (Draft.guardedBy o.1.text)).filterMap Draft.edge? =
        (drafts true o.2).filterMap Draft.edge? := by
      rw [List.filterMap_map]
      simp only [Function.comp_def, Draft.edge?_guardedBy]
    rw [optionDrafts, List.filterMap_append, hbody, List.mem_append, h.1, ih h.2, laterOptionEdges,
      List.mem_append]

/-- The drafts without a source are the moves of a nested statement. -/
theorem filterMap_move?_drafts (nested : Bool) (s : Stmt) :
    (drafts nested s).filterMap Draft.move? = if nested then s.moves else [] := by
  induction s generalizing nested with
  | basic a => cases nested <;> rfl
  | seq s t ihs iht =>
    have hfirst : ((drafts nested s).map (Draft.continueWith t.text)).filterMap Draft.move? =
        ((drafts nested s).filterMap Draft.move?).map (Move.continueWith t.text) := by
      rw [List.filterMap_map, List.map_filterMap]
      simp only [Function.comp_def, Draft.move?_continueWith]
    rw [drafts, List.filterMap_append, hfirst, ihs, iht]
    cases nested <;> simp [moves]
  | choice os ih =>
    have hoptions := filterMap_move?_optionDrafts fun o ho => ih o ho true
    rw [drafts, List.filterMap_map, moves, ← hoptions]
    simp only [Function.comp_def, Draft.move?_enteredAt]
    cases nested <;> simp
  | loop os ih =>
    have hoptions := filterMap_move?_optionDrafts fun o ho => ih o ho true
    have hbodies : ((optionDrafts os).flatMap (Draft.looped nested (loop os).text)).filterMap
        Draft.move? =
          if nested then (optionMoves os).map (Move.continueWith (loop os).text) else [] := by
      rw [List.filterMap_flatMap, ← hoptions, List.map_filterMap]
      simp only [Draft.filterMap_move?_looped]
      cases nested <;> simp [List.filterMap_eq_flatMap_toList]
    rw [drafts, List.filterMap_append, List.filterMap_append, hbodies, moves]
    cases nested <;> simp [exitMove, Draft.move?, List.filterMap_cons]

/-- The edges of a nested statement are its later edges; otherwise the first ones are among them. -/
theorem mem_edges_drafts (nested : Bool) (s : Stmt) :
    e ∈ (drafts nested s).filterMap Draft.edge? ↔
      nested = false ∧ e ∈ s.firstEdges ∨ e ∈ s.laterEdges := by
  have hmoves (os : List (Expr × Stmt)) :
      (optionDrafts os).filterMap Draft.move? = optionMoves os :=
    filterMap_move?_optionDrafts fun o _ => filterMap_move?_drafts true o.2
  induction s generalizing nested e with
  | basic a =>
    cases nested <;> simp [drafts, Draft.edge?, firstEdges, moves, laterEdges, Move.fromLocation,
      text, eq_comm]
  | seq s t ihs iht =>
    have hfirst : ((drafts nested s).map (Draft.continueWith t.text)).filterMap Draft.edge? =
        ((drafts nested s).filterMap Draft.edge?).map (Edge.continueWith t.text) := by
      rw [List.filterMap_map, List.map_filterMap]
      simp only [Function.comp_def, Draft.edge?_continueWith]
    rw [drafts, List.filterMap_append, hfirst, firstEdges_seq, laterEdges]
    simp only [List.mem_append, List.mem_map, ihs, iht]
    grind
  | choice os ih =>
    have hlater : e ∈ (optionDrafts os).filterMap Draft.edge? ↔ e ∈ laterOptionEdges os :=
      mem_edges_optionDrafts fun o ho => by simpa using ih o ho true
    rw [drafts, Draft.mem_edges_enteredAt, hlater, hmoves, or_comm]
    rfl
  | loop os ih =>
    have hlater : ∀ e, e ∈ (optionDrafts os).filterMap Draft.edge? ↔ e ∈ laterOptionEdges os :=
      fun e => mem_edges_optionDrafts fun o ho => by simpa using ih o ho true
    have hexit : e ∈ (drafts nested (loop os)).filterMap Draft.edge? ↔
        e ∈ ((optionDrafts os).flatMap (Draft.looped nested (loop os).text)).filterMap Draft.edge? ∨
          e = (exitMove os).fromLocation (loop os).text := by
      rw [drafts]
      cases nested <;> simp [Draft.edge?, exitMove, Move.fromLocation, eq_comm]
    rw [hexit, Draft.mem_edges_looped, hmoves, laterEdges, firstEdges, moves, List.map_append]
    simp only [List.mem_append, List.mem_map, hlater, List.map_cons, List.map_nil,
      List.mem_singleton]
    grind

/-- Every draft of a whole statement has a source. -/
theorem mem_ends_drafts {s : Stmt} {l : String} :
    l ∈ (drafts false s).flatMap (fun d => d.source.toList ++ [d.target]) ↔
      ∃ e ∈ (drafts false s).filterMap Draft.edge?, l ∈ [e.source, e.target] := by
  have hsource : ∀ d ∈ drafts false s, ∃ source, d.source = some source := by
    intro d hd
    refine Option.ne_none_iff_exists'.mp fun hnone => ?_
    have hmove : (⟨d.guard, d.action, d.target⟩ : Move) ∈ (drafts false s).filterMap Draft.move? :=
      List.mem_filterMap.mpr ⟨d, hd, by simp [Draft.move?, hnone]⟩
    simp [filterMap_move?_drafts] at hmove
  rw [List.mem_flatMap]
  constructor
  · rintro ⟨d, hd, hl⟩
    obtain ⟨source, hd'⟩ := hsource d hd
    refine ⟨⟨source, d.guard.getD "true", d.action, d.target⟩, ?_, by simpa [hd'] using hl⟩
    exact List.mem_filterMap.mpr ⟨d, hd, by simp [Draft.edge?, hd']⟩
  · rintro ⟨e, he, hl⟩
    obtain ⟨d, hd, hedge⟩ := List.mem_filterMap.mp he
    obtain ⟨source, hd', rfl⟩ := Option.map_eq_some_iff.mp hedge
    exact ⟨d, hd, by simpa [hd'] using hl⟩

end Drafts

end Stmt

end OmegaCheck
