import OmegaCheck.Proofs.Interleaving

/-!
# Graphs side by side

Two graphs side by side move one at a time. What they reach together is every pair of what they
reach alone, as long as no steps are missing on either side, and the interleaving of two explored
systems without handshakes is the system explored from the two graphs side by side.
-/

namespace OmegaCheck.StateSpace

variable {S T A ε : Type}
variable {moves : S → Except ε (List (A × S))} {initial : List S}
variable {moves' : T → Except ε (List (A × T))} {initial' : List T} {pairs : List (S × T)}

/-- One component moves and the other one stays; both have to know their steps. -/
def sideBySide (moves : S → Except ε (List (A × S))) (moves' : T → Except ε (List (A × T)))
    (x : S × T) : Except ε (List (A × (S × T))) := do
  let left ← (do let steps ← moves x.1; return steps.map fun m => (m.1, (m.2, x.2)))
  let right ← (do let steps ← moves' x.2; return steps.map fun m => (m.1, (x.1, m.2)))
  return left ++ right

theorem collects_sideBySide {x : S × T} {d d' : Prop} {p : A × S → Prop} {p' : A × T → Prop}
    (h : Collects (moves x.1) d p) (h' : Collects (moves' x.2) d' p') :
    Collects (sideBySide moves moves' x) (d ∧ d') fun y =>
      p (y.1, y.2.1) ∧ y.2.2 = x.2 ∨ p' (y.1, y.2.2) ∧ y.2.1 = x.1 := by
  refine ((h.map _).append (h'.map _)).congr Iff.rfl ?_
  rintro _ ⟨a, s, t⟩
  refine or_congr ⟨?_, ?_⟩ ⟨?_, ?_⟩
  · rintro ⟨⟨b, s'⟩, hp, heq⟩
    cases heq
    exact ⟨hp, rfl⟩
  · rintro ⟨hp, rfl⟩
    exact ⟨(a, s), hp, rfl⟩
  · rintro ⟨⟨b, t'⟩, hp, heq⟩
    cases heq
    exact ⟨hp, rfl⟩
  · rintro ⟨hp, rfl⟩
    exact ⟨(a, t), hp, rfl⟩

theorem sideBySide_ok_iff {x : S × T} : (∃ steps, sideBySide moves moves' x = .ok steps) ↔
    (∃ steps, moves x.1 = .ok steps) ∧ ∃ steps, moves' x.2 = .ok steps :=
  (collects_sideBySide (.self _) (.self _)).ok_iff

theorem leads_sideBySide {x y : S × T} : Leads (sideBySide moves moves') x y ↔
    (∃ steps, sideBySide moves moves' x = .ok steps) ∧
      (Leads moves x.1 y.1 ∧ y.2 = x.2 ∨ Leads moves' x.2 y.2 ∧ y.1 = x.1) := by
  have hmem := (collects_sideBySide (.self (moves x.1)) (.self (moves' x.2))).mem_iff
  constructor
  · rintro ⟨steps, a, hsteps, hy⟩
    refine ⟨⟨steps, hsteps⟩, ?_⟩
    obtain ⟨⟨left, hleft, hl⟩, heq⟩ | ⟨⟨right, hright, hr⟩, heq⟩ := (hmem steps hsteps _).mp hy
    · exact .inl ⟨⟨left, a, hleft, hl⟩, heq⟩
    · exact .inr ⟨⟨right, a, hright, hr⟩, heq⟩
  · rintro ⟨⟨steps, hsteps⟩, ⟨⟨left, a, hleft, hl⟩, heq⟩ | ⟨⟨right, a, hright, hr⟩, heq⟩⟩
    · exact ⟨steps, a, hsteps, (hmem steps hsteps _).mpr (.inl ⟨⟨left, hleft, hl⟩, heq⟩)⟩
    · exact ⟨steps, a, hsteps, (hmem steps hsteps _).mpr (.inr ⟨⟨right, hright, hr⟩, heq⟩)⟩

section Reached

variable (hpairs : ∀ x, x ∈ pairs ↔ x.1 ∈ initial ∧ x.2 ∈ initial')
include hpairs

theorem reached_of_sideBySide {x : S × T} (h : Reached (sideBySide moves moves') pairs x) :
    Reached moves initial x.1 ∧ Reached moves' initial' x.2 := by
  obtain ⟨s, hs, n, hwalk⟩ := h
  induction hwalk with
  | nil =>
    obtain ⟨hleft, hright⟩ := (hpairs s).mp hs
    exact ⟨⟨s.1, hleft, 0, .nil _⟩, s.2, hright, 0, .nil _⟩
  | snoc _ hz ih =>
    obtain ⟨hleft, hright⟩ := ih
    obtain ⟨_, ⟨hstep, heq⟩ | ⟨hstep, heq⟩⟩ := leads_sideBySide.mp hz
    · rw [heq]
      exact ⟨hleft.step hstep, hright⟩
    · rw [heq]
      exact ⟨hleft, hright.step hstep⟩

theorem reached_sideBySide
    (hdefined : ∀ x, Reached (sideBySide moves moves') pairs x →
      ∃ steps, sideBySide moves moves' x = .ok steps) {x : S × T}
    (hleft : Reached moves initial x.1) (hright : Reached moves' initial' x.2) :
    Reached (sideBySide moves moves') pairs x := by
  obtain ⟨s, hs, n, hwalk⟩ := hleft
  obtain ⟨t, ht, m, hwalk'⟩ := hright
  refine hwalk.invariant_pair (p := Reached (sideBySide moves moves') pairs) hwalk' ?_ ?_ ?_
  · exact ⟨(s, t), (hpairs _).mpr ⟨hs, ht⟩, 0, .nil _⟩
  · exact fun a b ha hab => ha.step (leads_sideBySide.mpr ⟨hdefined _ ha, .inl ⟨hab, rfl⟩⟩)
  · exact fun a b ha hab => ha.step (leads_sideBySide.mpr ⟨hdefined _ ha, .inr ⟨hab, rfl⟩⟩)

variable [Element S] [Element T] [Element A]

theorem IsReachable.exists_sideBySide {space : StateSpace S A} {space' : StateSpace T A}
    (h : IsReachable moves initial space) (h' : IsReachable moves' initial' space') :
    ∃ joint, IsReachable (sideBySide moves moves') pairs joint := by
  refine exists_isReachable (U := space.states.toList ×ˢ space'.states.toList)
    (fun x hx => ?_) (fun x hx => ?_)
  all_goals
    obtain ⟨hleft, hright⟩ := reached_of_sideBySide hpairs hx
    have hleft := (h.mem_states _).mpr hleft
    have hright := (h'.mem_states _).mpr hright
  · exact sideBySide_ok_iff.mpr ⟨h.defined _ hleft, h'.defined _ hright⟩
  · exact List.mem_product.mpr ⟨FinSet.mem_toList.mpr hleft, FinSet.mem_toList.mpr hright⟩

/-- Either graph is met along a fixed state of the other one. -/
theorem IsReachable.exists_of_sideBySide {joint : StateSpace (S × T) A}
    (h : IsReachable (sideBySide moves moves') pairs joint) {s : S} {t : T} (hs : s ∈ initial)
    (ht : t ∈ initial') : (∃ space, IsReachable moves initial space) ∧
      ∃ space', IsReachable moves' initial' space' := by
  have hdefined : ∀ x, Reached (sideBySide moves moves') pairs x →
      ∃ steps, sideBySide moves moves' x = .ok steps :=
    fun x hx => h.defined x ((h.mem_states x).mpr hx)
  have hleft : ∀ y, Reached moves initial y → Reached (sideBySide moves moves') pairs (y, t) :=
    fun y hy => reached_sideBySide hpairs hdefined hy ⟨t, ht, 0, .nil _⟩
  have hright : ∀ z, Reached moves' initial' z → Reached (sideBySide moves moves') pairs (s, z) :=
    fun z hz => reached_sideBySide hpairs hdefined ⟨s, hs, 0, .nil _⟩ hz
  constructor
  · refine exists_isReachable (U := joint.states.toList.map Prod.fst) (fun y hy => ?_) fun y hy => ?_
    · exact (sideBySide_ok_iff.mp (hdefined _ (hleft y hy))).1
    · have hmem := FinSet.mem_toList.mpr ((h.mem_states _).mpr (hleft y hy))
      exact List.mem_map.mpr ⟨_, hmem, rfl⟩
  · refine exists_isReachable (U := joint.states.toList.map Prod.snd) (fun z hz => ?_) fun z hz => ?_
    · exact (sideBySide_ok_iff.mp (hdefined _ (hright z hz))).2
    · have hmem := FinSet.mem_toList.mpr ((h.mem_states _).mpr (hright z hz))
      exact List.mem_map.mpr ⟨_, hmem, rfl⟩

end Reached

variable [Element S] [Element T] [Element A]

variable {P : Type} [Element P]

section Interleave

omit [Element T] in
theorem IsReachable.mem_states_of_reach {ts : TransitionSystem S A P} {s : S}
    (h : IsReachable moves initial ts.space) (hs : s ∈ ts.reach) : s ∈ ts.states := by
  obtain ⟨s₀, n, hs₀, hwalk⟩ := TransitionSystem.mem_reach.mp hs
  refine hwalk.invariant (p := fun r => r ∈ ts.states) ?_ ?_
  · exact (h.mem_states s₀).mpr ⟨s₀, (h.mem_initial s₀).mp hs₀, 0, .nil _⟩
  · rintro r t hr ⟨a, ht⟩
    obtain ⟨_, steps, hsteps, hmem⟩ := (h.mem_transitions _).mp ht
    exact (h.mem_states t).mpr (((h.mem_states r).mp hr).step ⟨steps, a, hsteps, hmem⟩)

variable (hpairs : ∀ x, x ∈ pairs ↔ x.1 ∈ initial ∧ x.2 ∈ initial')
variable {ts : TransitionSystem S A P} {us : TransitionSystem T A P}
variable (hts : IsReachable moves initial ts.space) (hus : IsReachable moves' initial' us.space)
include hpairs hts hus

theorem IsReachable.renaming_compositeMoves : Renaming id (sideBySide moves moves') pairs
    (TransitionSystem.compositeMoves ∅ ts us : S × T → Except ε (List (A × (S × T))))
    (ts.initial.product us.initial).toList := by
  refine ⟨fun x => ?_, fun x hx => ?_, fun _ _ _ _ heq => heq⟩
  · have hinitial : x ∈ pairs ↔ x.1 ∈ ts.initial ∧ x.2 ∈ us.initial := by
      rw [hpairs, ← hts.mem_initial, ← hus.mem_initial]
      rfl
    simp [hinitial]
  · obtain ⟨hleft, hright⟩ := reached_of_sideBySide hpairs hx
    have hleft := (hts.mem_states _).mpr hleft
    have hright := (hus.mem_states _).mpr hright
    refine (collects_sideBySide (.self _) (.self _)).renamed (.of_ok _) ?_ fun _ a y => ?_
    · exact iff_of_true ⟨hts.defined _ hleft, hus.defined _ hright⟩ trivial
    · simp only [TransitionSystem.mem_jointMoves, TransitionSystem.compositeMove_empty_iff, id,
        exists_eq_right]
      refine or_congr (and_congr_left fun _ => ?_) (and_congr_left fun _ => ?_)
      · exact (hts.mem_transitions _).trans (and_iff_right hleft)
      · exact (hus.mem_transitions _).trans (and_iff_right hright)

/-- The interleaving of two explored systems is explored from the graphs side by side. -/
theorem IsReachable.interleave : IsReachable (sideBySide moves moves') pairs
    (TransitionSystem.interleave ∅ ts us).space := by
  obtain ⟨joint, hjoint⟩ := hts.exists_sideBySide hpairs hus
  have hspace := (hts.renaming_compositeMoves hpairs hus).isReachable_map hjoint
  have hinterleave := TransitionSystem.isReachable_interleave_of_reach (ε := ε) ∅
    (fun _ => hts.mem_states_of_reach) fun _ => hus.mem_states_of_reach
  rw [map_id] at hspace
  rw [hspace.unique hinterleave] at hjoint
  exact hjoint

/-- Where both systems are explored, all their states are met together. -/
theorem IsReachable.mem_states_interleave {x : S × T} :
    x ∈ (TransitionSystem.interleave ∅ ts us).states ↔ x.1 ∈ ts.states ∧ x.2 ∈ us.states := by
  have hjoint := hts.interleave hpairs hus
  refine (hjoint.mem_states x).trans
    (Iff.trans ?_ (and_congr (hts.mem_states x.1) (hus.mem_states x.2)).symm)
  constructor
  · exact reached_of_sideBySide hpairs
  · rintro ⟨hleft, hright⟩
    refine reached_sideBySide hpairs (fun y hy => ?_) hleft hright
    exact hjoint.defined y ((hjoint.mem_states y).mpr hy)

end Interleave

end OmegaCheck.StateSpace
