import OmegaCheck.ProgramGraph.Interleaving
import OmegaCheck.ProgramGraph.Unfolding
import OmegaCheck.Proofs.Isomorphism

/-!
# What an unfolding asks and finds

The steps of a program graph in a state, the memories it starts from, and when its unfolding
succeeds, told without the order in which edges and initializations are tried.
-/

namespace OmegaCheck

section Edges

variable {L A : Type} [ToString A] (es : Evaluators) (m : Memory)

def edgeTrial : Trial EvalError (Edge L A) Memory where
  ready e := Channel.isFeasible m e.actionText
  guard e := es.guard m e.guard
  effect e := es.effect m e.actionText

theorem enabledEdges_eq (edges : List (Edge L A)) :
    enabledEdges es m edges = (edgeTrial es m).gather edges := by
  induction edges with
  | nil => rfl
  | cons e edges ih =>
    rw [enabledEdges, ih]
    rfl

theorem collects_enabledEdges (edges : List (Edge L A)) :
    Collects (enabledEdges es m edges) (∀ e ∈ edges, (edgeTrial es m).Defined e)
      fun x => x.1 ∈ edges ∧ (edgeTrial es m).Gives x.1 x.2 := by
  rw [enabledEdges_eq]
  exact (edgeTrial es m).collects_gather edges

section Congr

variable {es es' : Evaluators} {m : Memory} {e : Edge L A}
variable (hguard : ∀ b, es.guard m e.guard = .ok b ↔ es'.guard m e.guard = .ok b)
variable (heffect : ∀ n, es.effect m e.actionText = .ok n ↔
  es'.effect m e.actionText = .ok n)
include hguard heffect

theorem edgeTrial_defined_congr : (edgeTrial es m).Defined e ↔ (edgeTrial es' m).Defined e := by
  have hready : (edgeTrial es m).ready e = (edgeTrial es' m).ready e := rfl
  exact Trial.defined_congr hready hguard (exists_congr heffect)

theorem edgeTrial_gives_congr {n : Memory} :
    (edgeTrial es m).Gives e n ↔ (edgeTrial es' m).Gives e n := by
  have hready : (edgeTrial es m).ready e = (edgeTrial es' m).ready e := rfl
  exact Trial.gives_congr hready hguard heffect

end Congr

end Edges

section Memories

variable {es : Evaluators} {inits inits' : List (List String)}

/-- The initializations, or the empty one if there is none. -/
def orEmpty (inits : List (List String)) : List (List String) :=
  if inits.isEmpty then [[]] else inits

theorem mem_orEmpty {init : List String} :
    init ∈ orEmpty inits ↔ init ∈ inits ∨ inits = [] ∧ init = [] := by
  cases inits <;> simp [orEmpty]

theorem exists_mem_orEmpty (inits : List (List String)) : ∃ init, init ∈ orEmpty inits := by
  cases inits with
  | nil => exact ⟨[], List.mem_singleton.mpr rfl⟩
  | cons init inits => exact ⟨init, List.mem_cons_self⟩

theorem initialMemories_eq : initialMemories es inits =
    (do let memories ← (orEmpty inits).mapM es.initialMemory; return FinSet.ofList memories) := by
  cases inits with
  | nil => rfl
  | cons init inits =>
    have horEmpty : orEmpty (init :: inits) = init :: inits := rfl
    rw [initialMemories, horEmpty, List.mapM_cons]
    cases es.initialMemory init with
    | error e => rfl
    | ok m => cases inits.mapM es.initialMemory <;> rfl

/-- One memory for each initialization. -/
theorem initialMemories_eq_ok_iff {memories : FinSet Memory} :
    initialMemories es inits = .ok memories ↔
      (∀ init ∈ orEmpty inits, ∃ m, es.initialMemory init = .ok m) ∧
      ∀ m, m ∈ memories ↔ ∃ init ∈ orEmpty inits, es.initialMemory init = .ok m := by
  rw [initialMemories_eq]
  exact (Collects.mapM _ _).ofList_eq_ok_iff

theorem initialMemories_congr {es' : Evaluators} {memories : FinSet Memory}
    (h : ∀ init, init ∈ orEmpty inits ↔ init ∈ orEmpty inits')
    (hes : ∀ init ∈ orEmpty inits, ∀ m,
      es.initialMemory init = .ok m ↔ es'.initialMemory init = .ok m) :
    initialMemories es inits = .ok memories ↔ initialMemories es' inits' = .ok memories := by
  have hmemory : ∀ m, (∃ init ∈ orEmpty inits, es.initialMemory init = .ok m) ↔
      ∃ init ∈ orEmpty inits', es'.initialMemory init = .ok m := by
    intro m
    refine exists_congr fun init => ?_
    rw [← h]
    exact and_congr_right fun hinit => hes init hinit m
  have hdefined : (∀ init ∈ orEmpty inits, ∃ m, es.initialMemory init = .ok m) ↔
      ∀ init ∈ orEmpty inits', ∃ m, es'.initialMemory init = .ok m := by
    refine forall_congr' fun init => ?_
    rw [← h]
    exact forall_congr' fun hinit => exists_congr (hes init hinit)
  rw [initialMemories_eq_ok_iff, initialMemories_eq_ok_iff, hdefined]
  simp only [hmemory]

end Memories

namespace ProgramGraph

variable {L A : Type} [Element L] [Element A] {es : Evaluators} {pg : ProgramGraph L A}

theorem mem_edgesFrom {l : L} {e : Edge L A} :
    e ∈ pg.edgesFrom l ↔ e ∈ pg.edges ∧ e.source = l := by
  simp [edgesFrom]

variable [ToString A]

/-- The edges out of the location are asked, and those that give a memory are the steps. -/
theorem collects_movesFrom (x : L × Memory) :
    Collects (pg.movesFrom es x)
      (∀ e, e ∈ pg.edges → e.source = x.1 → (edgeTrial es x.2).Defined e)
      fun y => ∃ e, e ∈ pg.edges ∧ e.source = x.1 ∧
        ∃ n, (edgeTrial es x.2).Gives e n ∧ y = (e.action, (e.target, n)) := by
  refine ((collects_enabledEdges es x.2 (pg.edgesFrom x.1)).map _).congr ?_ fun _ y => ?_
  · simp only [mem_edgesFrom, and_imp]
  · constructor
    · rintro ⟨⟨e, n⟩, ⟨he, hgives⟩, rfl⟩
      rw [mem_edgesFrom] at he
      exact ⟨e, he.1, he.2, n, hgives, rfl⟩
    · rintro ⟨e, he, hsource, n, hgives, rfl⟩
      exact ⟨(e, n), ⟨mem_edgesFrom.mpr ⟨he, hsource⟩, hgives⟩, rfl⟩

theorem unfold_eq_ok_iff [LocationText L] {bounds : Bounds}
    {ts : TransitionSystem (L × Memory) A String} :
    pg.unfold es bounds = .ok ts ↔ ∃ memories space,
      initialMemories es pg.initializations.toList = .ok memories ∧
      StateSpace.explore bounds (pg.initial.product memories).toList (pg.movesFrom es) = .ok space ∧
      space.toSystem pg.name ∅ ∅ (fun s => locationText s.1 :: s.2.propositions) = ts := by
  rw [unfold, bind_eq_ok_iff]
  refine exists_congr fun memories => ?_
  rw [mapError_eq_ok_iff, bind_eq_ok_iff, ← exists_and_left]
  refine exists_congr fun space => and_congr_right fun _ => and_congr_right fun _ => ?_
  exact iff_of_eq (Except.ok.injEq _ _)

/-- The unfolding depends only on the values that the evaluators find for the texts of the graph. -/
theorem unfold_congr [LocationText L] {es' : Evaluators} {bounds : Bounds}
    (hinit : ∀ init ∈ orEmpty pg.initializations.toList, ∀ m,
      es.initialMemory init = .ok m ↔ es'.initialMemory init = .ok m)
    (hguard : ∀ e, e ∈ pg.edges → ∀ m b, es.guard m e.guard = .ok b ↔ es'.guard m e.guard = .ok b)
    (heffect : ∀ e, e ∈ pg.edges → ∀ m n,
      es.effect m e.actionText = .ok n ↔ es'.effect m e.actionText = .ok n)
    {ts : TransitionSystem (L × Memory) A String} :
    pg.unfold es bounds = .ok ts ↔ pg.unfold es' bounds = .ok ts := by
  have hrenamed : ∀ x, StateSpace.Renamed id (pg.movesFrom es' x) (pg.movesFrom es x) := by
    intro x
    refine (collects_movesFrom x).renamed (collects_movesFrom x) ?_ fun _ a y => ?_
    · exact forall₃_congr fun e he _ =>
        (edgeTrial_defined_congr (hguard e he x.2) (heffect e he x.2)).symm
    · simp only [id, exists_eq_right]
      refine exists_congr fun e => and_congr_right fun he => and_congr_right fun _ => ?_
      refine exists_congr fun n => and_congr_left fun _ => ?_
      exact edgeTrial_gives_congr (hguard e he x.2) (heffect e he x.2)
  rw [unfold_eq_ok_iff, unfold_eq_ok_iff]
  refine exists_congr fun memories => exists_congr fun space => ?_
  refine and_congr (initialMemories_congr (fun _ => Iff.rfl) hinit) (and_congr_left fun _ => ?_)
  exact StateSpace.explore_congr hrenamed

end ProgramGraph

end OmegaCheck
