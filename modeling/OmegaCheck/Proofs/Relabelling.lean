import OmegaCheck.Proofs.Isomorphism

/-!
# Isomorphisms up to the form of actions

Two systems may have the same shape while their transitions carry actions that are not equal but
related, as when an action can be written in several ways.
-/

namespace OmegaCheck

/-- The map pairs off the states and preserves and reflects initial states and labels. Each
transition of one system is matched by one of the other with a related action. -/
structure TransitionSystem.IsIsomorphismUpTo {S T A B P : Type} [Element S] [Element T] [Element A]
    [Element B] [Element P] (R : A → B → Prop) (f : S → T) (ts : TransitionSystem S A P)
    (us : TransitionSystem T B P) : Prop where
  states : Set.BijOn f {s | s ∈ ts.states} {t | t ∈ us.states}
  initial : ∀ s, s ∈ ts.states → (s ∈ ts.initial ↔ f s ∈ us.initial)
  label : ∀ s, s ∈ ts.states → us.labelOf (f s) = ts.labelOf s
  forth : ∀ s a t, ⟨s, a, t⟩ ∈ ts.transitions → ∃ b, R a b ∧ ⟨f s, b, f t⟩ ∈ us.transitions
  back : ∀ s b t, s ∈ ts.states → t ∈ ts.states → ⟨f s, b, f t⟩ ∈ us.transitions →
    ∃ a, R a b ∧ ⟨s, a, t⟩ ∈ ts.transitions

namespace StateSpace

variable {S T A B ε δ : Type} {R : A → B → Prop} {f : S → T}

/-- Both lists of moves are there or neither is, and then their moves match, with related actions
and renamed targets. -/
structure Related (R : A → B → Prop) (f : S → T) (r : Except ε (List (A × S)))
    (r' : Except δ (List (B × T))) : Prop where
  ok_iff : (∃ steps, r = .ok steps) ↔ ∃ steps', r' = .ok steps'
  forth : ∀ steps steps', r = .ok steps → r' = .ok steps' →
    ∀ a x, (a, x) ∈ steps → ∃ b, R a b ∧ (b, f x) ∈ steps'
  back : ∀ steps steps', r = .ok steps → r' = .ok steps' →
    ∀ b y, (b, y) ∈ steps' → ∃ a x, R a b ∧ (a, x) ∈ steps ∧ f x = y

theorem related_of_collects {r : Except ε (List (A × S))} {r' : Except δ (List (B × T))}
    {d d' : Prop} {p : A × S → Prop} {p' : B × T → Prop} (h : Collects r d p)
    (h' : Collects r' d' p') (hd : d ↔ d')
    (hforth : ∀ a x, p (a, x) → ∃ b, R a b ∧ p' (b, f x))
    (hback : ∀ b y, p' (b, y) → ∃ a x, R a b ∧ p (a, x) ∧ f x = y) : Related R f r r' where
  ok_iff := h.ok_iff.trans (hd.trans h'.ok_iff.symm)
  forth steps steps' hsteps hsteps' a x hx := by
    obtain ⟨b, hR, hb⟩ := hforth a x ((h.mem_iff steps hsteps _).mp hx)
    exact ⟨b, hR, (h'.mem_iff steps' hsteps' _).mpr hb⟩
  back steps steps' hsteps hsteps' b y hy := by
    obtain ⟨a, x, hR, ha, hxy⟩ := hback b y ((h'.mem_iff steps' hsteps' _).mp hy)
    exact ⟨a, x, hR, (h.mem_iff steps hsteps _).mpr ha, hxy⟩

/-- The second graph is the first one with its reachable states renamed, no two of them alike, and
related actions along its moves. -/
structure Relabelling (R : A → B → Prop) (f : S → T) (moves : S → Except ε (List (A × S)))
    (initial : List S) (moves' : T → Except δ (List (B × T))) (initial' : List T) : Prop where
  mem_initial : ∀ y, y ∈ initial' ↔ ∃ x ∈ initial, f x = y
  related : ∀ x, Reached moves initial x → Related R f (moves x) (moves' (f x))
  injective : ∀ x y, Reached moves initial x → Reached moves initial y → f x = f y → x = y

namespace Relabelling

variable {moves : S → Except ε (List (A × S))} {initial : List S}
variable {moves' : T → Except δ (List (B × T))} {initial' : List T}
variable (h : Relabelling R f moves initial moves' initial')
include h

theorem sameShape : SameShape f moves initial moves' initial' where
  mem_initial := h.mem_initial
  defined_iff x hx := (h.related x hx).ok_iff
  leads_iff x hx y := by
    have hrelated := h.related x hx
    constructor
    · rintro ⟨steps', b, hsteps', hy⟩
      obtain ⟨steps, hsteps⟩ := hrelated.ok_iff.mpr ⟨steps', hsteps'⟩
      obtain ⟨a, z, _, hz, rfl⟩ := hrelated.back steps steps' hsteps hsteps' b y hy
      exact ⟨z, ⟨steps, a, hsteps, hz⟩, rfl⟩
    · rintro ⟨z, ⟨steps, a, hsteps, hz⟩, rfl⟩
      obtain ⟨steps', hsteps'⟩ := hrelated.ok_iff.mp ⟨steps, hsteps⟩
      obtain ⟨b, _, hb⟩ := hrelated.forth steps steps' hsteps hsteps' a z hz
      exact ⟨steps', b, hsteps', hb⟩
  injective := h.injective

variable {P : Type} [Element S] [Element T] [Element A] [Element B] [Element P]

/-- Related graphs are explored to systems of one shape. -/
theorem isIsomorphismUpTo {ts : TransitionSystem S A P} {us : TransitionSystem T B P}
    (hts : IsReachable moves initial ts.space) (hus : IsReachable moves' initial' us.space)
    (hlabel : ∀ s, s ∈ ts.states → us.labelOf (f s) = ts.labelOf s) :
    TransitionSystem.IsIsomorphismUpTo R f ts us := by
  have hstates : us.states = ts.states.image f := h.sameShape.states_eq hts hus
  have hrelated : ∀ s, s ∈ ts.states → Related R f (moves s) (moves' (f s)) :=
    fun s hs => h.related s ((hts.mem_states s).mp hs)
  have himage : ∀ s, s ∈ ts.states → f s ∈ us.states := fun s hs => by
    rw [hstates]
    exact FinSet.mem_image.mpr ⟨s, hs, rfl⟩
  constructor
  case states =>
    refine ⟨himage, fun s hs t ht => h.sameShape.injOn hts hs ht, fun t ht => ?_⟩
    change t ∈ us.states at ht
    rw [hstates] at ht
    exact FinSet.mem_image.mp ht
  case initial =>
    intro s hs
    have hinitial : f s ∈ us.initial ↔ ∃ x ∈ initial, f x = f s :=
      (hus.mem_initial (f s)).trans (h.mem_initial (f s))
    rw [hinitial]
    constructor
    · exact fun hi => ⟨s, (hts.mem_initial s).mp hi, rfl⟩
    · rintro ⟨x, hx, heq⟩
      have hxs := h.sameShape.injOn hts (hts.mem_of_initial ((hts.mem_initial x).mpr hx)) hs heq
      exact (hts.mem_initial s).mpr (hxs ▸ hx)
  case label => exact hlabel
  case forth =>
    intro s a t ht
    obtain ⟨hs, steps, hsteps, hmem⟩ := (hts.mem_transitions _).mp ht
    obtain ⟨steps', hsteps'⟩ := hus.defined _ (himage s hs)
    obtain ⟨b, hR, hb⟩ := (hrelated s hs).forth steps steps' hsteps hsteps' a t hmem
    exact ⟨b, hR, (hus.mem_transitions _).mpr ⟨himage s hs, steps', hsteps', hb⟩⟩
  case back =>
    intro s b t hs ht hst
    obtain ⟨_, steps', hsteps', hmem⟩ := (hus.mem_transitions _).mp hst
    obtain ⟨steps, hsteps⟩ := hts.defined s hs
    obtain ⟨a, x, hR, ha, heq⟩ := (hrelated s hs).back steps steps' hsteps hsteps' b (f t) hmem
    have htrans : (⟨s, a, x⟩ : Transition S A) ∈ ts.transitions :=
      (hts.mem_transitions _).mpr ⟨hs, steps, hsteps, ha⟩
    obtain rfl := h.sameShape.injOn hts (hts.mem_of_transition htrans).2 ht heq
    exact ⟨a, hR, htrans⟩

end Relabelling

end StateSpace

end OmegaCheck
