import OmegaCheck.Proofs.Interleaving

/-!
# Laws of interleaving

Which of two systems comes first, and which two of three are put together first, makes no difference
to an interleaving but for the form of its states. Either side keeps only what it reaches; that both
reach the same is shown along their runs, where a move of one is a move of the other as long as the
state is met on both sides.
-/

namespace OmegaCheck

namespace FinSet

variable {α β : Type} [Element α] [Element β]

theorem mem_image_equiv {e : α ≃ β} {s : FinSet α} {b : β} : b ∈ s.image e ↔ e.symm b ∈ s := by
  rw [mem_image]
  constructor
  · rintro ⟨a, ha, rfl⟩
    rwa [e.symm_apply_apply]
  · exact fun h => ⟨_, h, e.apply_symm_apply b⟩

theorem image_id (s : FinSet α) : s.image id = s := ext fun a => by simp

theorem union_comm (s t : FinSet α) : s ∪ t = t ∪ s := ext fun a => by simp [or_comm]

theorem union_assoc (s t u : FinSet α) : s ∪ t ∪ u = s ∪ (t ∪ u) := ext fun a => by simp [or_assoc]

end FinSet

namespace TransitionSystem

section Map

variable {S T A P : Type} [Element S] [Element T] [Element A] [Element P]
variable {ts : TransitionSystem S A P} {e : S ≃ T}

theorem mem_transitions_map {t t' : T} {a : A} :
    ⟨t, a, t'⟩ ∈ (ts.map e id id).transitions ↔ ⟨e.symm t, a, e.symm t'⟩ ∈ ts.transitions := by
  rw [map, FinSet.mem_image]
  constructor
  · rintro ⟨⟨s, b, s'⟩, hu, heq⟩
    cases heq
    simpa using hu
  · exact fun h => ⟨_, h, by simp⟩

theorem mem_labels_map {t : T} {p : P} :
    (t, p) ∈ (ts.map e id id).labels ↔ (e.symm t, p) ∈ ts.labels := by
  rw [map, FinSet.mem_image]
  constructor
  · rintro ⟨⟨s, q⟩, hl, heq⟩
    cases heq
    simpa using hl
  · exact fun h => ⟨_, h, by simp⟩

theorem eq_of_parts {ts us : TransitionSystem S A P} (hname : ts.name = us.name)
    (hstates : ∀ s, s ∈ ts.states ↔ s ∈ us.states)
    (hinitial : ∀ s, s ∈ ts.initial ↔ s ∈ us.initial) (hactions : ts.actions = us.actions)
    (hprops : ts.propositions = us.propositions)
    (htransitions : ∀ s a t, ⟨s, a, t⟩ ∈ ts.transitions ↔ ⟨s, a, t⟩ ∈ us.transitions)
    (hlabels : ∀ s p, (s, p) ∈ ts.labels ↔ (s, p) ∈ us.labels) : ts = us := by
  have hstates := FinSet.ext hstates
  have hinitial := FinSet.ext hinitial
  have htransitions : ts.transitions = us.transitions :=
    FinSet.ext fun ⟨s, a, t⟩ => htransitions s a t
  have hlabels : ts.labels = us.labels := FinSet.ext fun ⟨s, p⟩ => hlabels s p
  cases ts
  cases us
  cases hname
  cases hstates
  cases hinitial
  cases hactions
  cases hprops
  cases htransitions
  cases hlabels
  rfl

end Map

section Regrouping

variable {S T S' T' A P : Type} [Element S] [Element T] [Element S'] [Element T'] [Element A]
  [Element P]
variable {e : S × T ≃ S' × T'} {handshake : FinSet A}
variable {ts : TransitionSystem S A P} {us : TransitionSystem T A P}
variable {ts' : TransitionSystem S' A P} {us' : TransitionSystem T' A P}

/-- The two pairs of systems start alike, and move and are labelled alike in the states that both
meet. -/
structure Regroups (e : S × T ≃ S' × T') (handshake : FinSet A) (ts : TransitionSystem S A P)
    (us : TransitionSystem T A P) (ts' : TransitionSystem S' A P) (us' : TransitionSystem T' A P) :
    Prop where
  initial : ∀ x, x.1 ∈ ts.initial ∧ x.2 ∈ us.initial ↔ (e x).1 ∈ ts'.initial ∧ (e x).2 ∈ us'.initial
  moves : ∀ x, Met handshake ts us x → Met handshake ts' us' (e x) → ∀ a y,
    CompositeMove handshake ts us x a y ↔ CompositeMove handshake ts' us' (e x) a (e y)
  actions : ts.actions ∪ us.actions = ts'.actions ∪ us'.actions
  propositions : ts.propositions ∪ us.propositions = ts'.propositions ∪ us'.propositions
  label : ∀ x, Met handshake ts us x → Met handshake ts' us' (e x) →
    ts.labelOf x.1 ∪ us.labelOf x.2 = ts'.labelOf (e x).1 ∪ us'.labelOf (e x).2

namespace Regroups

variable (h : Regroups e handshake ts us ts' us')
include h

/-- Step by step a run of the one pair is a run of the other. -/
theorem met_iff (x : S × T) : Met handshake ts us x ↔ Met handshake ts' us' (e x) := by
  constructor
  · rintro ⟨x₀, n, hx₀, hwalk⟩
    induction hwalk with
    | nil => exact ⟨e x₀, 0, (h.initial x₀).mp hx₀, .nil _⟩
    | @snoc y z n hwalk hz ih =>
      obtain ⟨a, hz⟩ := hz
      exact ih.step ⟨a, (h.moves y ⟨x₀, n, hx₀, hwalk⟩ ih a z).mp hz⟩
  · rintro ⟨x₀, n, hx₀, hwalk⟩
    generalize hx : e x = x' at hwalk
    induction hwalk generalizing x with
    | nil =>
      subst hx
      exact ⟨x, 0, (h.initial x).mpr hx₀, .nil _⟩
    | @snoc y z n hwalk hz ih =>
      obtain ⟨a, hz⟩ := hz
      have hy : Met handshake ts us (e.symm y) := ih (e.symm y) (e.apply_symm_apply y)
      have hmoves := h.moves (e.symm y) hy
      rw [e.apply_symm_apply] at hmoves
      subst hx
      exact hy.step ⟨a, (hmoves ⟨x₀, n, hx₀, hwalk⟩ a x).mpr hz⟩

theorem isInterleaving_map {joint : TransitionSystem (S × T) A P}
    (hjoint : IsInterleaving handshake ts us joint) :
    IsInterleaving handshake ts' us' (joint.map e id id) := by
  have hstates : ∀ y, y ∈ (joint.map e id id).states ↔ Met handshake ts us (e.symm y) :=
    fun y => FinSet.mem_image_equiv.trans (hjoint.mem_states _)
  have hmet : ∀ y, Met handshake ts us (e.symm y) ↔ Met handshake ts' us' y := by
    intro y
    rw [h.met_iff, e.apply_symm_apply]
  constructor
  case mem_initial =>
    intro y
    refine FinSet.mem_image_equiv.trans ((hjoint.mem_initial _).trans ?_)
    rw [h.initial, e.apply_symm_apply]
  case mem_states => exact fun y => (hstates y).trans (hmet y)
  case mem_transitions =>
    intro y a z
    rw [mem_transitions_map, hjoint.mem_transitions, hstates, hjoint.mem_states]
    refine and_congr_right fun hy => ?_
    rw [h.moves _ hy ((h.met_iff _).mp hy), e.apply_symm_apply, e.apply_symm_apply]
  case actions => exact (FinSet.image_id _).trans (hjoint.actions.trans h.actions)
  case propositions => exact (FinSet.image_id _).trans (hjoint.propositions.trans h.propositions)
  case label =>
    intro y hy
    have hlabel : (joint.map e id id).labelOf y = joint.labelOf (e.symm y) := by
      refine FinSet.ext fun p => ?_
      rw [mem_labelOf, mem_labelOf, mem_labels_map]
    have hy := (hstates y).mp hy
    rw [hlabel, hjoint.label _ ((hjoint.mem_states _).mpr hy), h.label _ hy ((h.met_iff _).mp hy),
      e.apply_symm_apply]

end Regroups

end Regrouping

section Laws

variable {S T U A P : Type} [Element S] [Element T] [Element U] [Element A] [Element P]
variable {handshake : FinSet A} {ts : TransitionSystem S A P} {us : TransitionSystem T A P}
variable {vs : TransitionSystem U A P}

theorem WellFormed.interleave (hts : ts.WellFormed) (hus : us.WellFormed) (handshake : FinSet A) :
    (interleave handshake ts us).WellFormed :=
  (isReachable_interleave handshake hts hus).wellFormed

/-- Nothing but its name and labels of what is no state is left open by what an interleaving is. -/
theorem IsInterleaving.unique {joint joint' : TransitionSystem (S × T) A P}
    (h : IsInterleaving handshake ts us joint) (h' : IsInterleaving handshake ts us joint')
    (hname : joint.name = joint'.name) (hlabelled : ∀ x p, (x, p) ∈ joint.labels → x ∈ joint.states)
    (hlabelled' : ∀ x p, (x, p) ∈ joint'.labels → x ∈ joint'.states) : joint = joint' := by
  have hstates : ∀ x, x ∈ joint.states ↔ x ∈ joint'.states :=
    fun x => (h.mem_states x).trans (h'.mem_states x).symm
  have hlabel : ∀ x, x ∈ joint.states → joint.labelOf x = joint'.labelOf x :=
    fun x hx => (h.label x hx).trans (h'.label x ((hstates x).mp hx)).symm
  refine eq_of_parts hname hstates (fun x => ?_) (h.actions.trans h'.actions.symm)
    (h.propositions.trans h'.propositions.symm) (fun x a y => ?_) fun x p => ?_
  · rw [h.mem_initial, h'.mem_initial]
  · rw [h.mem_transitions, h'.mem_transitions, hstates]
  · rw [← mem_labelOf, ← mem_labelOf]
    constructor
    · intro hp
      rwa [← hlabel x (hlabelled x p (mem_labelOf.mp hp))]
    · intro hp
      rwa [hlabel x ((hstates x).mpr (hlabelled' x p (mem_labelOf.mp hp)))]

theorem Regroups.map_interleave {S' T' : Type} [Element S'] [Element T'] {e : S × T ≃ S' × T'}
    {ts' : TransitionSystem S' A P} {us' : TransitionSystem T' A P}
    (h : Regroups e handshake ts us ts' us') (hts : ts.WellFormed) (hus : us.WellFormed)
    (hts' : ts'.WellFormed) (hus' : us'.WellFormed) :
    (interleave handshake ts us).map e id id = interleave handshake ts' us' := by
  refine (h.isInterleaving_map (isInterleaving_interleave handshake hts hus)).unique
    (isInterleaving_interleave handshake hts' hus') rfl (fun x p hp => ?_)
    (hts'.interleave hus' handshake).labelled
  have hlabelled := (hts.interleave hus handshake).labelled _ p (mem_labels_map.mp hp)
  exact FinSet.mem_image_equiv.mpr hlabelled

theorem CompositeMove.swap {x y : S × T} {a : A} (h : CompositeMove handshake ts us x a y) :
    CompositeMove handshake us ts x.swap a y.swap := by
  cases h with
  | left t ha h => exact .right t ha h
  | right s ha h => exact .left s ha h
  | both ha h h' => exact .both ha h' h

theorem regroups_swap : Regroups (Equiv.prodComm S T) handshake ts us us ts where
  initial _ := and_comm
  moves _ _ _ _ _ := ⟨CompositeMove.swap, CompositeMove.swap⟩
  actions := FinSet.union_comm _ _
  propositions := FinSet.union_comm _ _
  label _ _ _ := FinSet.union_comm _ _

theorem compositeMove_iff {x y : S × T} {a : A} : CompositeMove handshake ts us x a y ↔
    a ∈ handshake ∧ ⟨x.1, a, y.1⟩ ∈ ts.transitions ∧ ⟨x.2, a, y.2⟩ ∈ us.transitions ∨
    a ∉ handshake ∧ (⟨x.1, a, y.1⟩ ∈ ts.transitions ∧ y.2 = x.2 ∨
      ⟨x.2, a, y.2⟩ ∈ us.transitions ∧ y.1 = x.1) := by
  obtain ⟨s, t⟩ := x
  obtain ⟨s', t'⟩ := y
  constructor
  · intro h
    cases h with
    | left _ ha h => exact .inr ⟨ha, .inl ⟨h, rfl⟩⟩
    | right _ ha h => exact .inr ⟨ha, .inr ⟨h, rfl⟩⟩
    | both ha h h' => exact .inl ⟨ha, h, h'⟩
  · rintro (⟨ha, h, h'⟩ | ⟨ha, ⟨h, rfl⟩ | ⟨h, rfl⟩⟩)
    · exact .both ha h h'
    · exact .left _ ha h
    · exact .right _ ha h

section Assoc

variable {first : TransitionSystem (S × T) A P} {last : TransitionSystem (T × U) A P}
variable (hfirst : IsInterleaving handshake ts us first)
variable (hlast : IsInterleaving handshake us vs last)
include hfirst hlast

/-- Three systems move as one, however two of them are put together: by a handshake all of them, by
another action one of them. -/
theorem IsInterleaving.moves_assoc {s : S} {t : T} {u : U} (hst : (s, t) ∈ first.states)
    (htu : (t, u) ∈ last.states) {a : A} {y : (S × T) × U} :
    CompositeMove handshake first vs ((s, t), u) a y ↔
      CompositeMove handshake ts last (s, (t, u)) a (y.1.1, (y.1.2, y.2)) := by
  simp only [compositeMove_iff, hfirst.mem_transitions, hlast.mem_transitions, hst, htu, true_and]
  by_cases ha : a ∈ handshake
  · simp only [ha, not_true_eq_false, false_and, or_false, true_and, and_assoc]
  · simp only [ha, not_false_eq_true, false_and, false_or, true_and, Prod.ext_iff]
    tauto

theorem IsInterleaving.regroups_assoc (hfirst' : first.WellFormed) (hlast' : last.WellFormed) :
    Regroups (Equiv.prodAssoc S T U) handshake first vs ts last := by
  have hst : ∀ x, Met handshake first vs x → x.1 ∈ first.states :=
    fun x hx => hfirst'.mem_states_of_reach hx.reach.1
  have htu : ∀ x, Met handshake ts last x → x.2 ∈ last.states :=
    fun x hx => hlast'.mem_states_of_reach hx.reach.2
  constructor
  case initial =>
    intro x
    rw [hfirst.mem_initial, hlast.mem_initial]
    exact and_assoc
  case moves => exact fun x hx hx' a y => hfirst.moves_assoc hlast (hst x hx) (htu _ hx')
  case actions => rw [hfirst.actions, hlast.actions, FinSet.union_assoc]
  case propositions => rw [hfirst.propositions, hlast.propositions, FinSet.union_assoc]
  case label =>
    intro x hx hx'
    rw [hfirst.label _ (hst x hx), hlast.label _ (htu _ hx'), FinSet.union_assoc]
    rfl

end Assoc

/-- Neither the order of two systems nor the grouping of three matters, but for the form of the
states. -/
theorem interleaveChecked_comm_and_assoc (hts : ts.Built) (hus : us.Built) (hvs : vs.Built)
    (handshake : FinSet A) :
    (∃ joint, interleaveChecked handshake ts us = .ok joint ∧
      interleaveChecked handshake us ts = .ok (joint.map Prod.swap id id)) ∧
    ∃ first last whole, interleaveChecked handshake ts us = .ok first ∧
      interleaveChecked handshake us vs = .ok last ∧
      interleaveChecked handshake first vs = .ok whole ∧
      interleaveChecked handshake ts last =
        .ok (whole.map (fun x => (x.1.1, (x.1.2, x.2))) id id) := by
  have hts := hts.wellFormed
  have hus := hus.wellFormed
  have hvs := hvs.wellFormed
  have hfirst := hts.interleave hus handshake
  have hlast := hus.interleave hvs handshake
  have hswap : Regroups (Equiv.prodComm S T) handshake ts us us ts := regroups_swap
  have hassoc := (isInterleaving_interleave handshake hts hus).regroups_assoc
    (isInterleaving_interleave handshake hus hvs) hfirst hlast
  constructor
  · refine ⟨_, interleaveChecked_eq_ok handshake hts hus, ?_⟩
    rw [interleaveChecked_eq_ok handshake hus hts, ← hswap.map_interleave hts hus hus hts]
    rfl
  · refine ⟨_, _, _, interleaveChecked_eq_ok handshake hts hus,
      interleaveChecked_eq_ok handshake hus hvs, interleaveChecked_eq_ok handshake hfirst hvs, ?_⟩
    rw [interleaveChecked_eq_ok handshake hts hlast, ← hassoc.map_interleave hfirst hvs hts hlast]
    rfl

/-- Takes part in one handshake by action 0 and in no other, and may go round by action 2. -/
def joiningOnce : TransitionSystem Nat Nat Nat :=
  ofChanges [.addStates [0, 1], .addActions [0, 2], .addProposition 5, .addInitial 0,
    .addTransition ⟨0, 0, 1⟩, .addTransition ⟨0, 2, 0⟩, .addLabel 0 5]

/-- After one common step the third system holds up the other two. -/
theorem interleaveChecked_swing_joiningOnce : ∃ first last whole,
    interleaveChecked (FinSet.ofList [0]) (swing 3) (swing 4) = .ok first ∧
    interleaveChecked (FinSet.ofList [0]) (swing 4) joiningOnce = .ok last ∧
    interleaveChecked (FinSet.ofList [0]) first joiningOnce = .ok whole ∧
    whole.states.toList = [((0, 0), 0), ((1, 1), 1)] ∧ whole.transitions.size = 3 ∧
    interleaveChecked (FinSet.ofList [0]) (swing 3) last =
      .ok (whole.map (fun x => (x.1.1, (x.1.2, x.2))) id id) ∧
    interleaveChecked (FinSet.ofList [0]) (swing 4) (swing 3) =
      .ok (first.map Prod.swap id id) := by
  obtain ⟨⟨joint, hjoint, hswap⟩, first, last, whole, hfirst, hlast, hwhole, hassoc⟩ :=
    interleaveChecked_comm_and_assoc (show (swing 3).Built from ⟨_, rfl⟩)
      (show (swing 4).Built from ⟨_, rfl⟩) (show joiningOnce.Built from ⟨_, rfl⟩)
      (FinSet.ofList [0])
  obtain rfl := Except.ok.inj (hjoint.symm.trans hfirst)
  have hrun : ∃ first' whole',
      interleaveChecked (FinSet.ofList [0]) (swing 3) (swing 4) = .ok first' ∧
      interleaveChecked (FinSet.ofList [0]) first' joiningOnce = .ok whole' ∧
      whole'.states.toList = [((0, 0), 0), ((1, 1), 1)] ∧ whole'.transitions.size = 3 :=
    ⟨_, _, rfl, rfl, rfl, rfl⟩
  obtain ⟨first', whole', hfirst', hwhole', hstates, hsize⟩ := hrun
  obtain rfl := Except.ok.inj (hfirst'.symm.trans hfirst)
  obtain rfl := Except.ok.inj (hwhole'.symm.trans hwhole)
  exact ⟨_, last, _, hfirst, hlast, hwhole, hstates, hsize, hassoc, hswap⟩

end Laws

end TransitionSystem

end OmegaCheck
