import OmegaCheck.Proofs.ProgramGraph.SmallStep
import OmegaCheck.Proofs.ProgramGraph.Store

/-!
# The program graph of a statement

The program graph of a statement is the graph of its small steps. Its locations are texts, so the
steps of statements with one text have to be the same edges: they are, since such statements differ
only in the nesting of sequences and in minus signs of literals, and neither shows in an edge.
-/

namespace OmegaCheck

namespace Stmt

section Nesting

variable {f : Action → Action} {g : Expr → Expr}

end Nesting

end Stmt

namespace ProgramGraph

theorem foldlM_addEdge (pg : ProgramGraph String) {es : List (Edge String)}
    (h : ∀ e ∈ es, e.source ∈ pg.locations ∧ e.target ∈ pg.locations) :
    es.foldlM addEdge pg = .ok { pg with edges := pg.edges.insertAll es } := by
  induction es generalizing pg with
  | nil => rfl
  | cons e es ih =>
    rw [List.forall_mem_cons] at h
    have hadd : pg.addEdge e = .ok { pg with edges := pg.edges.insert e } := by
      rw [addEdge, if_neg (not_not_intro h.1.1), if_neg (not_not_intro h.1.2)]
    rw [List.foldlM_cons, hadd]
    exact ih { pg with edges := pg.edges.insert e } h.2

end ProgramGraph

namespace Stmt

theorem compile_eq_ok (s : Stmt) : s.compile = .ok
    { locations := FinSet.insertAll ∅ (s.text :: (s.firstEdges ++ s.laterEdges).flatMap
        fun e => [e.source, e.target])
      initial := FinSet.insert ∅ s.text
      edges := FinSet.insertAll ∅ (s.firstEdges ++ s.laterEdges) } := by
  have hedges : ∀ e, e ∈ (s.drafts false).filterMap Draft.edge? ↔
      e ∈ s.firstEdges ++ s.laterEdges := fun e => by
    rw [mem_edges_drafts, List.mem_append, eq_self, true_and]
  have hset : FinSet.insertAll ∅ ((s.drafts false).filterMap Draft.edge?) =
      FinSet.insertAll ∅ (s.firstEdges ++ s.laterEdges) := by
    refine FinSet.ext fun e => ?_
    rw [FinSet.mem_insertAll, FinSet.mem_insertAll, hedges]
  have hlocations : FinSet.insertAll ∅
      (s.text :: (s.drafts false).flatMap fun d => d.source.toList ++ [d.target]) =
        FinSet.insertAll ∅ (s.text :: (s.firstEdges ++ s.laterEdges).flatMap
          fun e => [e.source, e.target]) := by
    refine FinSet.ext fun l => ?_
    rw [FinSet.mem_insertAll, FinSet.mem_insertAll, List.mem_cons, List.mem_cons, mem_ends_drafts,
      List.mem_flatMap]
    simp only [hedges]
  have hlocated : ∀ e ∈ (s.drafts false).filterMap Draft.edge?, ∀ l ∈ [e.source, e.target],
      l ∈ FinSet.insertAll ∅ (s.text :: (s.firstEdges ++ s.laterEdges).flatMap
        fun e => [e.source, e.target]) := by
    intro e he l hl
    rw [FinSet.mem_insertAll, List.mem_cons, List.mem_flatMap]
    exact .inl (.inr ⟨e, (hedges e).mp he, hl⟩)
  have hstart : (ProgramGraph.empty : ProgramGraph String).addLocations
      (s.text :: (s.drafts false).flatMap fun d => d.source.toList ++ [d.target]) =
        { locations := FinSet.insertAll ∅ (s.text :: (s.firstEdges ++ s.laterEdges).flatMap
            fun e => [e.source, e.target]) } := by
    rw [ProgramGraph.addLocations_eq, ← hlocations]
    rfl
  rw [compile, hstart, ProgramGraph.addInitial, if_pos (by simp), ← hset]
  apply ProgramGraph.foldlM_addEdge
  intro e he
  exact ⟨hlocated e he e.source (by simp), hlocated e he e.target (by simp)⟩

/-- The edges are the steps of the statements that are left to be run. -/
theorem mem_edges_iff {p : Action → Bool} {q : Expr → Bool} {s : Stmt} {pg : ProgramGraph String}
    {e : Edge String} (hs : s.all p q = true) (hpg : s.compile = .ok pg) :
    e ∈ pg.edges ↔ ∃ r c a r', Reaches s r ∧ Step r c a r' ∧ e = edge r c a r' := by
  rw [compile_eq_ok] at hpg
  cases hpg
  rw [FinSet.mem_insertAll, or_iff_left (FinSet.not_mem_empty e), mem_edges hs]
  constructor
  · rintro ⟨r, hr, he⟩
    obtain ⟨c, a, r', hstep, rfl⟩ := mem_firstEdges.mp he
    exact ⟨r, c, a, r', hr, hstep, rfl⟩
  · rintro ⟨r, c, a, r', hr, hstep, rfl⟩
    exact ⟨r, hr, mem_firstEdges.mpr ⟨c, a, r', hstep, rfl⟩⟩

theorem mem_locations_iff {s : Stmt} {pg : ProgramGraph String} {l : String}
    (hs : s.wellFormed = true) (hpg : s.compile = .ok pg) :
    l ∈ pg.locations ↔ l = "" ∨ ∃ r, Reaches s r ∧ l = r.text := by
  have hends : l ∈ pg.locations ↔
      l = s.text ∨ ∃ e, e ∈ pg.edges ∧ (l = e.source ∨ l = e.target) := by
    rw [compile_eq_ok] at hpg
    cases hpg
    simp [or_and_right, exists_or]
  rw [hends]
  constructor
  · rintro (rfl | ⟨e, he, hl⟩)
    · exact .inr ⟨s, .refl, rfl⟩
    · obtain ⟨r, c, a, r', hr, hstep, rfl⟩ := (mem_edges_iff hs hpg).mp he
      obtain rfl | rfl := hl
      · exact .inr ⟨r, hr, rfl⟩
      · cases r' with
        | none => exact .inl rfl
        | some r' => exact .inr ⟨r', hr.tail ⟨c, a, hstep⟩, rfl⟩
  · rintro (rfl | ⟨r, hr, rfl⟩)
    · obtain ⟨r, hr, c, a, hstep⟩ := canEnd s hs
      exact .inr ⟨_, (mem_edges_iff hs hpg).mpr ⟨r, c, a, none, hr, hstep, rfl⟩, .inr rfl⟩
    · cases hr with
      | refl => exact .inl rfl
      | tail hr hleaves =>
        obtain ⟨c, a, hstep⟩ := hleaves
        exact .inr ⟨_, (mem_edges_iff hs hpg).mpr ⟨_, c, a, some r, hr, hstep, rfl⟩, .inr rfl⟩

end Stmt

end OmegaCheck
