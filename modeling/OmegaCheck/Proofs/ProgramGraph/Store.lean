import OmegaCheck.ProgramGraph.Basic

/-!
# Program graphs built by changes

A program graph is built from the empty one by any sequence of the changes its users can ask for; a
refused change leaves the graph as it is. Whatever the sequence, initial locations and the ends of
edges are locations of the graph: `ProgramGraph.Built.wellFormed`.
-/

namespace OmegaCheck.ProgramGraph

variable {L A : Type} [Element L] [Element A]

theorem addLocations_eq (pg : ProgramGraph L A) (ls : List L) :
    pg.addLocations ls = { pg with locations := pg.locations.insertAll ls } := by
  induction ls generalizing pg with
  | nil => rfl
  | cons l ls ih => exact ih (pg.addLocation l)

inductive Change (L : Type) (A : Type := String) where
  | setName (name : String)
  | addLocation (l : L)
  | addLocations (l : List L)
  | removeLocation (l : L)
  | addInitial (l : L)
  | removeInitial (l : L)
  | addInitialization (actions : List String)
  | removeInitialization (actions : List String)
  | addEdge (e : Edge L A)
  | removeEdge (e : Edge L A)

/-- The graph after a change, or why the change is refused. -/
def change (pg : ProgramGraph L A) : Change L A → Except (Error L) (ProgramGraph L A)
  | .setName name => .ok (pg.setName name)
  | .addLocation l => .ok (pg.addLocation l)
  | .addLocations l => .ok (pg.addLocations l)
  | .removeLocation l => pg.removeLocation l
  | .addInitial l => pg.addInitial l
  | .removeInitial l => .ok (pg.removeInitial l)
  | .addInitialization actions => .ok (pg.addInitialization actions)
  | .removeInitialization actions => .ok (pg.removeInitialization actions)
  | .addEdge e => pg.addEdge e
  | .removeEdge e => .ok (pg.removeEdge e)

def changed (pg : ProgramGraph L A) (c : Change L A) : ProgramGraph L A :=
  (pg.change c).toOption.getD pg

def ofChanges (cs : List (Change L A)) : ProgramGraph L A := cs.foldl changed empty

def Built (pg : ProgramGraph L A) : Prop := ∃ cs, ofChanges cs = pg

/-- Nothing refers to a location that is not there. -/
structure WellFormed (pg : ProgramGraph L A) : Prop where
  initial : ∀ l, l ∈ pg.initial → l ∈ pg.locations
  source : ∀ e, e ∈ pg.edges → e.source ∈ pg.locations
  target : ∀ e, e ∈ pg.edges → e.target ∈ pg.locations

namespace WellFormed

variable {pg pg' : ProgramGraph L A}

theorem empty : (empty : ProgramGraph L A).WellFormed := by
  constructor <;> simp [ProgramGraph.empty]

theorem addLocation (h : pg.WellFormed) (l : L) : (pg.addLocation l).WellFormed where
  initial m hm := FinSet.mem_insert.mpr (Or.inr (h.initial m hm))
  source e he := FinSet.mem_insert.mpr (Or.inr (h.source e he))
  target e he := FinSet.mem_insert.mpr (Or.inr (h.target e he))

theorem removeLocation (h : pg.WellFormed) {l : L} (hc : pg.removeLocation l = .ok pg') :
    pg'.WellFormed := by
  rw [ProgramGraph.removeLocation] at hc
  split at hc
  · cases hc
  rename_i hinitial
  split at hc
  · cases hc
  rename_i hedges
  cases hc
  simp only [List.any_eq_true, FinSet.mem_toList, Bool.or_eq_true, decide_eq_true_eq, not_exists,
    not_and, not_or] at hedges
  refine ⟨fun m hm => ?_, fun e he => ?_, fun e he => ?_⟩ <;> rw [FinSet.mem_erase]
  · exact ⟨fun heq => hinitial (heq ▸ hm), h.initial m hm⟩
  · exact ⟨(hedges e he).1, h.source e he⟩
  · exact ⟨(hedges e he).2, h.target e he⟩

theorem addInitial (h : pg.WellFormed) {l : L} (hc : pg.addInitial l = .ok pg') :
    pg'.WellFormed := by
  rw [ProgramGraph.addInitial] at hc
  split at hc
  · rename_i hl
    cases hc
    refine ⟨fun m hm => ?_, h.source, h.target⟩
    rcases FinSet.mem_insert.mp hm with rfl | hm
    · exact hl
    · exact h.initial m hm
  · cases hc

theorem addEdge (h : pg.WellFormed) {e : Edge L A} (hc : pg.addEdge e = .ok pg') :
    pg'.WellFormed := by
  rw [ProgramGraph.addEdge] at hc
  split at hc
  · cases hc
  rename_i hsource
  split at hc
  · cases hc
  rename_i htarget
  cases hc
  refine ⟨h.initial, fun f hf => ?_, fun f hf => ?_⟩
    <;> rcases FinSet.mem_insert.mp hf with rfl | hf
  · exact Decidable.not_not.mp hsource
  · exact h.source f hf
  · exact Decidable.not_not.mp htarget
  · exact h.target f hf

theorem foldl {α : Type} {f : ProgramGraph L A → α → ProgramGraph L A}
    (hf : ∀ pg a, pg.WellFormed → (f pg a).WellFormed) (h : pg.WellFormed) (l : List α) :
    (l.foldl f pg).WellFormed := by
  induction l generalizing pg with
  | nil => exact h
  | cons a l ih => exact ih (hf pg a h)

theorem change (h : pg.WellFormed) {c : Change L A} (hc : pg.change c = .ok pg') :
    pg'.WellFormed := by
  cases c with
  | setName name => cases hc; exact ⟨h.initial, h.source, h.target⟩
  | addLocation l => cases hc; exact h.addLocation l
  | addLocations l => cases hc; exact foldl (fun _ l h => h.addLocation l) h l
  | removeLocation l => exact h.removeLocation hc
  | addInitial l => exact h.addInitial hc
  | removeInitial l =>
    cases hc
    exact ⟨fun m hm => h.initial m (FinSet.mem_erase.mp hm).2, h.source, h.target⟩
  | addInitialization actions => cases hc; exact ⟨h.initial, h.source, h.target⟩
  | removeInitialization actions => cases hc; exact ⟨h.initial, h.source, h.target⟩
  | addEdge e => exact h.addEdge hc
  | removeEdge e =>
    cases hc
    exact ⟨h.initial, fun f hf => h.source f (FinSet.mem_erase.mp hf).2,
      fun f hf => h.target f (FinSet.mem_erase.mp hf).2⟩

theorem changed (h : pg.WellFormed) (c : Change L A) : (pg.changed c).WellFormed := by
  rw [ProgramGraph.changed]
  cases hc : pg.change c with
  | ok pg' => exact h.change hc
  | error e => exact h

end WellFormed

theorem Built.wellFormed {pg : ProgramGraph L A} (h : pg.Built) : pg.WellFormed := by
  obtain ⟨cs, rfl⟩ := h
  exact WellFormed.foldl (fun _ c h => h.changed c) .empty cs

end OmegaCheck.ProgramGraph
