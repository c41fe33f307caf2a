import OmegaCheck.Proofs.ProgramGraph.Processes

/-!
# From the start to the end of a program graph

In the program graph of a program no location is stray and none is stuck: all of them lie on a path
from the initial location to the end, and the end is the only one that no edge leaves. So where a
run of the graph stops short of the end, a guard or a channel holds it up and not the graph.
-/

namespace OmegaCheck

open Relation

namespace ProgramGraph

/-- An edge leads from `l` to `l'`. -/
def Joins (pg : ProgramGraph String) (l l' : String) : Prop := ∃ e ∈ pg.edgesFrom l, e.target = l'

/-- Every location lies on a path from `start` to the end, the empty location. -/
structure IsFlowFrom (pg : ProgramGraph String) (start : String) : Prop where
  initial : ∀ l, l ∈ pg.initial ↔ l = start
  registered : ∀ e, e ∈ pg.edges → e.source ∈ pg.locations ∧ e.target ∈ pg.locations
  final : "" ∈ pg.locations
  stops_iff : ∀ l, l ∈ pg.locations → (pg.edgesFrom l = [] ↔ l = "")
  reached : ∀ l, l ∈ pg.locations → ReflTransGen pg.Joins start l
  ends : ∀ l, l ∈ pg.locations → ReflTransGen pg.Joins l ""

theorem edgesFrom_ne_nil_of_joins {pg : ProgramGraph String} {l l' : String} (h : pg.Joins l l') :
    pg.edgesFrom l ≠ [] := by
  obtain ⟨e, he, _⟩ := h
  exact List.ne_nil_of_mem he

end ProgramGraph

namespace Stmt

section Paths

variable {s r r' : Stmt} {pg : ProgramGraph String} (hs : s.wellFormed = true)
  (hpg : s.compile = .ok pg) (hr : Reaches s r)
include hs hpg hr

theorem joins_of_step {c : Condition} {a : Option Action} {x : Option Stmt} (h : Step r c a x) :
    pg.Joins r.text (location x) := by
  have he := (mem_edges_iff hs hpg).mpr ⟨r, c, a, x, hr, h, rfl⟩
  exact ⟨edge r c a x, ProgramGraph.mem_edgesFrom.mpr ⟨he, rfl⟩, rfl⟩

/-- The path of a run through the locations. -/
theorem path_of_reaches (h : Reaches r r') : ReflTransGen pg.Joins r.text r'.text := by
  induction h with
  | refl => exact .refl
  | tail hreach hleaves ih =>
    obtain ⟨c, a, hstep⟩ := hleaves
    exact ih.tail (joins_of_step hs hpg (hr.trans hreach) hstep)

theorem path_to_end : ReflTransGen pg.Joins r.text "" := by
  obtain ⟨r', hreach, c, a, hstep⟩ := canEnd r (hr.all hs)
  exact (path_of_reaches hs hpg hr hreach).tail (joins_of_step hs hpg (hr.trans hreach) hstep)

end Paths

variable {s : Stmt} {pg : ProgramGraph String}

theorem location_mem_locations (hs : s.wellFormed = true) (hpg : s.compile = .ok pg)
    {x : Option Stmt} (hx : ∀ r ∈ x, Reaches s r) : location x ∈ pg.locations := by
  rw [mem_locations_iff hs hpg]
  cases x with
  | none => exact .inl rfl
  | some r => exact .inr ⟨r, hx r rfl, rfl⟩

theorem isFlowFrom_of_compile (hs : s.wellFormed = true) (hpg : s.compile = .ok pg) :
    pg.IsFlowFrom s.text := by
  have hends : ∀ l, l ∈ pg.locations → ReflTransGen pg.Joins l "" := by
    intro l hl
    obtain rfl | ⟨r, hr, rfl⟩ := (mem_locations_iff hs hpg).mp hl
    · exact .refl
    · exact path_to_end hs hpg hr
  refine ⟨fun l => ?_, fun e he => ?_, ?_, fun l hl => ⟨fun hnil => ?_, ?_⟩, fun l hl => ?_, hends⟩
  · rw [compile_eq_ok] at hpg
    cases hpg
    simp
  · obtain ⟨r, c, a, x, hr, hstep, rfl⟩ := (mem_edges_iff hs hpg).mp he
    constructor
    · exact location_mem_locations (x := some r) hs hpg (by rintro _ ⟨⟩; exact hr)
    · refine location_mem_locations hs hpg fun r' hr' => ?_
      cases hr'
      exact hr.tail ⟨c, a, hstep⟩
  · exact location_mem_locations (x := none) hs hpg (by simp)
  · -- The path to the end begins with an edge out of `l`, unless it is empty.
    obtain rfl | ⟨l', hjoins, _⟩ := (hends l hl).cases_head
    · rfl
    · exact absurd hnil (ProgramGraph.edgesFrom_ne_nil_of_joins hjoins)
  · rintro rfl
    rw [List.eq_nil_iff_forall_not_mem]
    intro e he
    obtain ⟨he, hsource⟩ := ProgramGraph.mem_edgesFrom.mp he
    obtain ⟨r, c, a, x, _, _, rfl⟩ := (mem_edges_iff hs hpg).mp he
    exact r.text_ne_empty hsource
  · obtain rfl | ⟨r, hr, rfl⟩ := (mem_locations_iff hs hpg).mp hl
    · exact path_to_end hs hpg .refl
    · exact path_of_reaches hs hpg .refl hr

/-- The program graph of whatever the parser reads leads from its initial location to the end. -/
theorem compile_isFlowFrom_of_parse {source : String} {s : Stmt} (h : Stmt.parse source = .ok s) :
    ∃ pg, s.compile = .ok pg ∧ pg.IsFlowFrom s.text := by
  refine ⟨_, s.compile_eq_ok, isFlowFrom_of_compile ?_ s.compile_eq_ok⟩
  exact wellFormed_of_accepted (accepted_of_parse h)

/-- A loop as an option of a choice, with more to do after it in each round of an outer loop. -/
def rounds : Stmt :=
  loop
    [(.binary .lt (.var "x") (.int 2),
      seq (choice [(.bool true, loop [(.var "y", basic (.assign "y" (.int 0)))]),
          (.not (.var "x"), basic (.receive "_c" "y"))])
        (basic (.assign "x" (.binary .add (.var "x") (.int 1)))))]

theorem compile_rounds_isFlowFrom : Stmt.parse rounds.text = .ok rounds ∧
    ∃ pg, rounds.compile = .ok pg ∧ pg.IsFlowFrom rounds.text :=
  have hparse : Stmt.parse rounds.text = .ok rounds := parse_text (s := rounds) (by decide)
  ⟨hparse, compile_isFlowFrom_of_parse hparse⟩

end Stmt

end OmegaCheck
