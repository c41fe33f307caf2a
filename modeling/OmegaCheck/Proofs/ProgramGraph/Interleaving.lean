import OmegaCheck.Proofs.ProgramGraph.Store
import OmegaCheck.Proofs.ProgramGraph.Unfolding

/-!
# The steps of interleaved program graphs

An interleaving moves by an edge of either graph while the other graph stays at one of its own
locations, and starts from an initialization of the first graph followed by one of the second.
-/

namespace OmegaCheck.ProgramGraph

variable {L M A : Type} [Element L] [Element M] [Element A] {es : Evaluators}
variable {pg : ProgramGraph L A} {qg : ProgramGraph M A}

/-- An edge of the first graph while the second one stays. -/
def leftEdge (m : M) (e : Edge L A) : Edge (L × M) A :=
  ⟨(e.source, m), e.guard, e.action, (e.target, m)⟩

/-- An edge of the second graph while the first one stays. -/
def rightEdge (l : L) (e : Edge M A) : Edge (L × M) A :=
  ⟨(l, e.source), e.guard, e.action, (l, e.target)⟩

theorem mem_edges_interleave {e : Edge (L × M) A} :
    e ∈ (pg.interleave qg).edges ↔
      (∃ f m, f ∈ pg.edges ∧ m ∈ qg.locations ∧ leftEdge m f = e) ∨
      ∃ f l, f ∈ qg.edges ∧ l ∈ pg.locations ∧ rightEdge l f = e := by
  simp [interleave, leftEdge, rightEdge]

theorem WellFormed.interleave (hpg : pg.WellFormed) (hqg : qg.WellFormed) :
    (pg.interleave qg).WellFormed where
  initial l hl := by
    obtain ⟨hleft, hright⟩ := FinSet.mem_product.mp hl
    exact FinSet.mem_product.mpr ⟨hpg.initial _ hleft, hqg.initial _ hright⟩
  source e he := by
    obtain ⟨f, m, hf, hm, rfl⟩ | ⟨f, l, hf, hl, rfl⟩ := mem_edges_interleave.mp he
    · exact FinSet.mem_product.mpr ⟨hpg.source f hf, hm⟩
    · exact FinSet.mem_product.mpr ⟨hl, hqg.source f hf⟩
  target e he := by
    obtain ⟨f, m, hf, hm, rfl⟩ | ⟨f, l, hf, hl, rfl⟩ := mem_edges_interleave.mp he
    · exact FinSet.mem_product.mpr ⟨hpg.target f hf, hm⟩
    · exact FinSet.mem_product.mpr ⟨hl, hqg.target f hf⟩

theorem WellFormed.mem_locations_of_reached [ToString A] (h : pg.WellFormed)
    {memories : FinSet Memory} {x : L × Memory}
    (hx : StateSpace.Reached (pg.movesFrom es) (pg.initial.product memories).toList x) :
    x.1 ∈ pg.locations := by
  obtain ⟨s, hs, n, hwalk⟩ := hx
  have hinitial : s.1 ∈ pg.locations :=
    h.initial _ (FinSet.mem_product.mp (FinSet.mem_toList.mp hs)).1
  refine hwalk.invariant (p := fun y => y.1 ∈ pg.locations) hinitial ?_
  rintro y z _ ⟨steps, a, hsteps, hz⟩
  obtain ⟨e, he, _, n, _, heq⟩ := ((collects_movesFrom y).mem_iff steps hsteps (a, z)).mp hz
  cases heq
  exact h.target e he

theorem mem_initializationsOrEmpty {inits : FinSet (List String)} {init : List String} :
    init ∈ initializationsOrEmpty inits ↔ init ∈ orEmpty inits.toList := by
  rw [initializationsOrEmpty, orEmpty, FinSet.isEmpty]
  split <;> simp

theorem mem_orEmpty_interleave {init : List String} :
    init ∈ orEmpty (pg.interleave qg).initializations.toList ↔
      ∃ first ∈ orEmpty pg.initializations.toList, ∃ second ∈ orEmpty qg.initializations.toList,
        first ++ second = init := by
  change init ∈ orEmpty (jointInitializations pg.initializations qg.initializations).toList ↔ _
  rw [jointInitializations]
  split
  · next hempty =>
    rw [Bool.and_eq_true] at hempty
    have hleft : pg.initializations.toList = [] := List.isEmpty_iff.mp hempty.1
    have hright : qg.initializations.toList = [] := List.isEmpty_iff.mp hempty.2
    have hnil : (∅ : FinSet (List String)).toList = [] := rfl
    simp [hleft, hright, hnil, orEmpty, eq_comm]
  · have hmem : ∀ init, init ∈ ((initializationsOrEmpty pg.initializations).product
        (initializationsOrEmpty qg.initializations)).image (fun x => x.1 ++ x.2) ↔
        ∃ first ∈ orEmpty pg.initializations.toList,
          ∃ second ∈ orEmpty qg.initializations.toList, first ++ second = init := by
      intro init
      simp only [FinSet.mem_image, FinSet.mem_product, mem_initializationsOrEmpty, Prod.exists]
      constructor
      · rintro ⟨first, second, ⟨hfirst, hsecond⟩, rfl⟩
        exact ⟨first, hfirst, second, hsecond, rfl⟩
      · rintro ⟨first, hfirst, second, hsecond, rfl⟩
        exact ⟨first, second, ⟨hfirst, hsecond⟩, rfl⟩
    -- Both graphs have something to choose from, so that no empty initialization is added.
    obtain ⟨first, hfirst⟩ := exists_mem_orEmpty pg.initializations.toList
    obtain ⟨second, hsecond⟩ := exists_mem_orEmpty qg.initializations.toList
    have hsome := (hmem _).mpr ⟨first, hfirst, second, hsecond, rfl⟩
    rw [mem_orEmpty, FinSet.mem_toList, hmem]
    simp [List.ne_nil_of_mem (FinSet.mem_toList.mpr hsome)]

/-- The edges of both graphs are asked where each graph is. -/
theorem collects_movesFrom_interleave [ToString A] {x : (L × M) × Memory}
    (hl : x.1.1 ∈ pg.locations) (hm : x.1.2 ∈ qg.locations) :
    Collects ((pg.interleave qg).movesFrom es x)
      ((∀ e, e ∈ pg.edges → e.source = x.1.1 → (edgeTrial es x.2).Defined e) ∧
        ∀ e, e ∈ qg.edges → e.source = x.1.2 → (edgeTrial es x.2).Defined e)
      fun y =>
        (∃ e, e ∈ pg.edges ∧ e.source = x.1.1 ∧
          ∃ n, (edgeTrial es x.2).Gives e n ∧ y = (e.action, ((e.target, x.1.2), n))) ∨
        ∃ e, e ∈ qg.edges ∧ e.source = x.1.2 ∧
          ∃ n, (edgeTrial es x.2).Gives e n ∧ y = (e.action, ((x.1.1, e.target), n)) := by
  obtain ⟨⟨l, m⟩, memory⟩ := x
  refine (collects_movesFrom _).congr ?_ fun _ y => ?_
  · constructor
    · intro h
      refine ⟨fun e he hsource => ?_, fun e he hsource => ?_⟩
      · exact h (leftEdge m e) (mem_edges_interleave.mpr (.inl ⟨e, m, he, hm, rfl⟩))
          (Prod.ext hsource rfl)
      · exact h (rightEdge l e) (mem_edges_interleave.mpr (.inr ⟨e, l, he, hl, rfl⟩))
          (Prod.ext rfl hsource)
    · rintro ⟨hleft, hright⟩ e he hsource
      obtain ⟨f, m', hf, _, rfl⟩ | ⟨f, l', hf, _, rfl⟩ := mem_edges_interleave.mp he
      · exact hleft f hf (congrArg Prod.fst hsource)
      · exact hright f hf (congrArg Prod.snd hsource)
  · constructor
    · rintro ⟨e, he, hsource, n, hgives, rfl⟩
      obtain ⟨f, m', hf, _, rfl⟩ | ⟨f, l', hf, _, rfl⟩ := mem_edges_interleave.mp he
      · cases hsource
        exact .inl ⟨f, hf, rfl, n, hgives, rfl⟩
      · cases hsource
        exact .inr ⟨f, hf, rfl, n, hgives, rfl⟩
    · rintro (⟨e, he, hsource, n, hgives, rfl⟩ | ⟨e, he, hsource, n, hgives, rfl⟩)
      · exact ⟨leftEdge m e, mem_edges_interleave.mpr (.inl ⟨e, m, he, hm, rfl⟩),
          Prod.ext hsource rfl, n, hgives, rfl⟩
      · exact ⟨rightEdge l e, mem_edges_interleave.mpr (.inr ⟨e, l, he, hl, rfl⟩),
          Prod.ext rfl hsource, n, hgives, rfl⟩

end OmegaCheck.ProgramGraph
