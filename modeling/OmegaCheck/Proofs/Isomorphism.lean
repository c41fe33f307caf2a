import OmegaCheck.Proofs.Collecting

/-!
# Isomorphic systems

Two systems have the same shape when some map pairs off their states and neither adds nor loses
initial states and transitions. Renaming the states of a graph gives such a map between the systems
that are explored from it.
-/

namespace OmegaCheck

/-- The states of a system and its steps, without the labels. -/
def TransitionSystem.space {S A P : Type} [Element S] [Element A] [Element P]
    (ts : TransitionSystem S A P) : StateSpace S A :=
  ⟨ts.states, ts.initial, ts.transitions⟩

/-- The map pairs off the states, and preserves and reflects initial states and transitions. -/
structure TransitionSystem.IsIsomorphism {S T A P Q : Type} [Element S] [Element T] [Element A]
    [Element P] [Element Q] (f : S → T) (ts : TransitionSystem S A P)
    (us : TransitionSystem T A Q) : Prop where
  states : Set.BijOn f {s | s ∈ ts.states} {t | t ∈ us.states}
  initial : ∀ s, s ∈ ts.states → (s ∈ ts.initial ↔ f s ∈ us.initial)
  transitions : ∀ s t, s ∈ ts.states → t ∈ ts.states → ∀ a,
    (⟨s, a, t⟩ ∈ ts.transitions ↔ ⟨f s, a, f t⟩ ∈ us.transitions)

namespace StateSpace

variable {S T A ε δ P Q : Type} [Element S] [Element T] [Element A] [Element P] [Element Q]
variable {f : S → T} {space : StateSpace S A}
variable {moves : S → Except ε (List (A × S))} {initial : List S}

theorem IsReachable.mem_of_initial (h : IsReachable moves initial space) {s : S}
    (hs : s ∈ space.initial) : s ∈ space.states :=
  (h.mem_states s).mpr ⟨s, (h.mem_initial s).mp hs, 0, .nil s⟩

theorem IsReachable.mem_of_transition (h : IsReachable moves initial space) {t : Transition S A}
    (ht : t ∈ space.transitions) : t.source ∈ space.states ∧ t.target ∈ space.states := by
  obtain ⟨hs, steps, hsteps, hmem⟩ := (h.mem_transitions t).mp ht
  exact ⟨hs, (h.mem_states _).mpr (((h.mem_states _).mp hs).step ⟨steps, t.action, hsteps, hmem⟩)⟩

/-- Renaming the states of a graph renames the system that is explored from it. -/
theorem Renaming.isIsomorphism {moves' : T → Except δ (List (A × T))} {initial' : List T}
    (hf : Renaming f moves initial moves' initial') {ts : TransitionSystem S A P}
    {us : TransitionSystem T A Q} (hts : IsReachable moves initial ts.space)
    (hus : IsReachable moves' initial' us.space) : TransitionSystem.IsIsomorphism f ts us := by
  have hmap : us.space = ts.space.map f := hus.unique (hf.isReachable_map hts)
  have hstates : us.states = ts.states.image f := congrArg StateSpace.states hmap
  have hinitial : us.initial = ts.initial.image f := congrArg StateSpace.initial hmap
  have htransitions : us.transitions = ts.transitions.image _ :=
    congrArg StateSpace.transitions hmap
  have hinj : Set.InjOn f {s | s ∈ ts.states} := fun s hs t ht heq =>
    hf.injective s t ((hts.mem_states s).mp hs) ((hts.mem_states t).mp ht) heq
  constructor
  case states =>
    rw [hstates]
    refine ⟨fun s hs => FinSet.mem_image.mpr ⟨s, hs, rfl⟩, hinj, fun t ht => ?_⟩
    exact FinSet.mem_image.mp ht
  case initial =>
    intro s hs
    rw [hinitial]
    refine ⟨fun hi => FinSet.mem_image.mpr ⟨s, hi, rfl⟩, fun hi => ?_⟩
    obtain ⟨r, hr, heq⟩ := FinSet.mem_image.mp hi
    rwa [← hinj (hts.mem_of_initial hr) hs heq]
  case transitions =>
    intro s t hs ht a
    rw [htransitions]
    refine ⟨fun hmem => FinSet.mem_image.mpr ⟨_, hmem, rfl⟩, fun hmem => ?_⟩
    obtain ⟨⟨r, b, u⟩, hru, heq⟩ := FinSet.mem_image.mp hmem
    obtain ⟨hr, hu⟩ := hts.mem_of_transition hru
    simp only [Transition.mk.injEq] at heq
    obtain ⟨hsource, rfl, htarget⟩ := heq
    obtain rfl : r = s := hinj hr hs hsource
    obtain rfl : u = t := hinj hu ht htarget
    exact hru

theorem labelOf_toSystem {name : Option String} {more : FinSet A} {props : FinSet P}
    {label : S → List P} {s : S} (hs : s ∈ space.states) :
    (space.toSystem name more props label).labelOf s = FinSet.ofList (label s) := by
  refine FinSet.ext fun p => ?_
  rw [TransitionSystem.mem_labelOf, toSystem, FinSet.mem_flatMap, FinSet.mem_ofList]
  constructor
  · rintro ⟨r, _, hr⟩
    obtain ⟨q, hq, heq⟩ := List.mem_map.mp hr
    cases heq
    exact hq
  · exact fun hp => ⟨s, hs, List.mem_map.mpr ⟨p, hp, rfl⟩⟩

end StateSpace

end OmegaCheck
