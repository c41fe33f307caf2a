import OmegaCheck.Proofs.Verification

/-!
# Explorations and their order

An exploration ends exactly when every reachable state has its steps and there are no more reachable
states than its bounds allow. Hence it does not matter in which order states and steps are listed,
and renaming the states renames the result.
-/

namespace OmegaCheck

theorem FinSet.size_image {α β : Type} [Element α] [Element β] {f : α → β} {s : FinSet α}
    (hf : ∀ a ∈ s, ∀ b ∈ s, f a = f b → a = b) : (s.image f).size = s.size := by
  have hnodup : (s.toList.map f).Nodup := by
    refine s.toList_nodup.map_on fun a ha b hb => ?_
    exact hf a (mem_toList.mp ha) b (mem_toList.mp hb)
  rw [size_eq_length hnodup fun b => by simp, List.length_map, length_toList]

namespace TransitionSystem

variable {S A P : Type} [Element S] [Element A] [Element P] {ts : TransitionSystem S A P}

section Ends

variable {next : S → List S} (hnext : ∀ s t, t ∈ next s ↔ ts.Joined s t) {seeds : List S}

/-- The seeds and the targets of transitions: nothing else is reached from the seeds. -/
def ends (ts : TransitionSystem S A P) (seeds : List S) : List S :=
  seeds ++ ts.transitions.toList.map Transition.target

theorem length_ends : (ts.ends seeds).length = seeds.length + ts.transitions.size := by
  rw [ends, List.length_append, List.length_map, FinSet.length_toList]

include hnext

theorem mem_ends_of_reachedIn (n : Nat) (x : S) (h : Search.ReachedIn next seeds n x) :
    x ∈ ts.ends seeds := by
  obtain ⟨s, hs, hwalk⟩ := h
  cases hwalk with
  | nil => exact List.mem_append_left _ hs
  | snoc _ hx =>
    obtain ⟨a, ha⟩ := (hnext _ _).mp hx
    exact List.mem_append_right _ (List.mem_map.mpr ⟨_, FinSet.mem_toList.mpr ha, rfl⟩)

theorem mem_order_iff {x : S} :
    x ∈ Search.order (seeds.length + ts.transitions.size) next seeds ↔
      ∃ s ∈ seeds, ∃ n, Walk ts.Joined s n x := by
  rw [Search.mem_order (mem_ends_of_reachedIn hnext) length_ends.le]
  constructor
  · rintro ⟨n, s, hs, hwalk⟩
    exact ⟨s, hs, n, hwalk.mono fun s t => (hnext s t).mp⟩
  · rintro ⟨s, hs, n, hwalk⟩
    exact ⟨n, s, hs, hwalk.mono fun s t => (hnext s t).mpr⟩

end Ends

theorem mem_reachFrom {seeds : List S} {x : S} :
    x ∈ ts.reachFrom seeds ↔ ∃ s ∈ seeds, ∃ n, Walk ts.Joined s n x := by
  have horder : x ∈ ts.reachFrom seeds ↔
      x ∈ Search.order (seeds.length + ts.transitions.size) ts.successors seeds := FinSet.mem_ofList
  rw [horder, mem_order_iff ts.lists_successors.mem_next]

end TransitionSystem

namespace StateSpace

variable {S T A B ε δ : Type} {f : S → T}
variable {moves : S → Except ε (List (A × S))} {initial : List S}
variable {moves' : T → Except δ (List (A × T))} {initial' : List T}

/-- Both fail, or the second list has the moves of the first with their targets renamed. -/
inductive Renamed (f : S → T) :
    Except ε (List (A × S)) → Except δ (List (A × T)) → Prop
  | ok {steps : List (A × S)} {steps' : List (A × T)}
      (h : ∀ a y, (a, y) ∈ steps' ↔ ∃ x, (a, x) ∈ steps ∧ f x = y) :
      Renamed f (.ok steps) (.ok steps')
  | error (e : ε) (e' : δ) : Renamed f (.error e) (.error e')

namespace Renamed

variable {r : Except ε (List (A × S))} {r' : Except δ (List (A × T))}

theorem exists_image (h : Renamed f r r') {steps : List (A × S)} (hr : r = .ok steps) :
    ∃ steps', r' = .ok steps' ∧ ∀ a y, (a, y) ∈ steps' ↔ ∃ x, (a, x) ∈ steps ∧ f x = y := by
  cases h with
  | ok h =>
    cases hr
    exact ⟨_, rfl, h⟩
  | error e e' => cases hr

theorem exists_source (h : Renamed f r r') {steps' : List (A × T)} (hr : r' = .ok steps') :
    ∃ steps, r = .ok steps ∧ ∀ a y, (a, y) ∈ steps' ↔ ∃ x, (a, x) ∈ steps ∧ f x = y := by
  cases h with
  | ok h =>
    cases hr
    exact ⟨_, rfl, h⟩
  | error e e' => cases hr

end Renamed

/-- Both fail, or both list the same moves, in whatever order and however often. -/
inductive SameMoves : Except ε (List (A × S)) → Except δ (List (A × S)) → Prop
  | ok {steps steps' : List (A × S)} (h : ∀ m, m ∈ steps' ↔ m ∈ steps) :
      SameMoves (.ok steps) (.ok steps')
  | error (e : ε) (e' : δ) : SameMoves (.error e) (.error e')

theorem SameMoves.renamed {r : Except ε (List (A × S))} {r' : Except δ (List (A × S))}
    (h : SameMoves r r') : Renamed id r r' := by
  cases h with
  | ok h => exact .ok fun a y => by simp [h]
  | error e e' => exact .error e e'

/-- The second graph is the first one with its reachable states renamed, no two of them alike,
whatever the actions are that its moves carry. -/
structure SameShape (f : S → T) (moves : S → Except ε (List (A × S))) (initial : List S)
    (moves' : T → Except δ (List (B × T))) (initial' : List T) : Prop where
  mem_initial : ∀ y, y ∈ initial' ↔ ∃ x ∈ initial, f x = y
  defined_iff : ∀ x, Reached moves initial x →
    ((∃ steps, moves x = .ok steps) ↔ ∃ steps, moves' (f x) = .ok steps)
  leads_iff : ∀ x, Reached moves initial x → ∀ y,
    Leads moves' (f x) y ↔ ∃ z, Leads moves x z ∧ f z = y
  injective : ∀ x y, Reached moves initial x → Reached moves initial y → f x = f y → x = y

theorem SameShape.reached_iff {moves' : T → Except δ (List (B × T))}
    (h : SameShape f moves initial moves' initial') {y : T} :
    Reached moves' initial' y ↔ ∃ x, Reached moves initial x ∧ f x = y := by
  constructor
  · rintro ⟨s, hs, n, hwalk⟩
    induction hwalk with
    | nil =>
      obtain ⟨x, hx, rfl⟩ := (h.mem_initial s).mp hs
      exact ⟨x, ⟨x, hx, 0, .nil x⟩, rfl⟩
    | snoc _ hz ih =>
      obtain ⟨x, hx, rfl⟩ := ih
      obtain ⟨z, hxz, rfl⟩ := (h.leads_iff x hx _).mp hz
      exact ⟨z, hx.step hxz, rfl⟩
  · rintro ⟨x, ⟨s, hs, n, hwalk⟩, rfl⟩
    induction hwalk with
    | nil => exact ⟨f s, (h.mem_initial _).mpr ⟨s, hs, rfl⟩, 0, .nil _⟩
    | snoc hwalk hz ih =>
      exact ih.step ((h.leads_iff _ ⟨s, hs, _, hwalk⟩ _).mpr ⟨_, hz, rfl⟩)

/-- The second graph is the first one with its reachable states renamed, no two of them alike. -/
structure Renaming (f : S → T) (moves : S → Except ε (List (A × S))) (initial : List S)
    (moves' : T → Except δ (List (A × T))) (initial' : List T) : Prop where
  mem_initial : ∀ y, y ∈ initial' ↔ ∃ x ∈ initial, f x = y
  renamed : ∀ x, Reached moves initial x → Renamed f (moves x) (moves' (f x))
  injective : ∀ x y, Reached moves initial x → Reached moves initial y → f x = f y → x = y

theorem Renaming.sameShape (h : Renaming f moves initial moves' initial') :
    SameShape f moves initial moves' initial' where
  mem_initial := h.mem_initial
  defined_iff x hx := by
    constructor
    · rintro ⟨steps, hsteps⟩
      obtain ⟨steps', hsteps', _⟩ := (h.renamed x hx).exists_image hsteps
      exact ⟨steps', hsteps'⟩
    · rintro ⟨steps', hsteps'⟩
      obtain ⟨steps, hsteps, _⟩ := (h.renamed x hx).exists_source hsteps'
      exact ⟨steps, hsteps⟩
  leads_iff x hx y := by
    constructor
    · rintro ⟨steps', a, hsteps', hy⟩
      obtain ⟨steps, hsteps, hmem⟩ := (h.renamed x hx).exists_source hsteps'
      obtain ⟨z, hz, rfl⟩ := (hmem a y).mp hy
      exact ⟨z, ⟨steps, a, hsteps, hz⟩, rfl⟩
    · rintro ⟨z, ⟨steps, a, hsteps, hz⟩, rfl⟩
      obtain ⟨steps', hsteps', hmem⟩ := (h.renamed x hx).exists_image hsteps
      exact ⟨steps', a, hsteps', (hmem a (f z)).mpr ⟨z, hz, rfl⟩⟩
  injective := h.injective

theorem Renaming.reached_iff (h : Renaming f moves initial moves' initial') {y : T} :
    Reached moves' initial' y ↔ ∃ x, Reached moves initial x ∧ f x = y :=
  h.sameShape.reached_iff

variable [Element S] [Element T] [Element A] [Element B]

theorem IsReachable.unique {space space' : StateSpace S A} (h : IsReachable moves initial space)
    (h' : IsReachable moves initial space') : space = space' := by
  have hstates : space.states = space'.states :=
    FinSet.ext fun x => (h.mem_states x).trans (h'.mem_states x).symm
  have hinitial : space.initial = space'.initial :=
    FinSet.ext fun x => (h.mem_initial x).trans (h'.mem_initial x).symm
  have htransitions : space.transitions = space'.transitions := by
    refine FinSet.ext fun t => ?_
    rw [h.mem_transitions, h'.mem_transitions, hstates]
  cases space
  cases space'
  cases hstates
  cases hinitial
  cases htransitions
  rfl

/-- Every expansion completes one state. -/
theorem Progress.size_le_of_expand {bounds : Bounds} {n : Nat} {space result : StateSpace S A}
    {done pending : List S} (h : Progress moves initial space done pending)
    (he : expand bounds moves n space pending = .ok result) :
    result.states.size ≤ done.length + n := by
  induction n generalizing space done pending with
  | zero =>
    cases pending with
    | nil => cases he; exact h.size_states.le
    | cons s pending => cases he
  | succ n ih =>
    cases pending with
    | nil =>
      cases he
      have := h.size_states
      simp only [List.length_nil] at this
      omega
    | cons s pending =>
      obtain ⟨steps, hs, _, he⟩ := expand_succ_eq_ok_iff.mp he
      have := ih (h.step hs) he
      simp only [List.length_append, List.length_singleton] at this
      omega

theorem size_le_of_explore {bounds : Bounds} {space : StateSpace S A}
    (h : explore bounds initial moves = .ok space) : space.states.size ≤ bounds.expansions := by
  rw [explore] at h
  cases hlimit : (checkLimit bounds (Search.meet ∅ initial).1 : Except (Halt ε) Unit) with
  | error e =>
    simp only [hlimit] at h
    cases h
  | ok _ =>
    simp only [hlimit] at h
    simpa using (Progress.start moves initial).size_le_of_expand h

theorem IsReachable.explore_eq {bounds : Bounds} {space : StateSpace S A}
    (h : IsReachable moves initial space) (hsize : space.states.size ≤ bounds.expansions) :
    explore bounds initial moves = .ok space := by
  have hdefined : ∀ x, Reached moves initial x → ∃ steps, moves x = .ok steps :=
    fun x hx => h.defined x ((h.mem_states x).mpr hx)
  have hU : ∀ x, Reached moves initial x → x ∈ space.states.toList :=
    fun x hx => FinSet.mem_toList.mpr ((h.mem_states x).mpr hx)
  obtain ⟨result, hresult⟩ := exists_explore bounds hdefined hU
    (by rwa [FinSet.length_toList])
  rw [hresult, (isReachable_of_explore hresult).unique h]

theorem explore_eq_ok_iff {bounds : Bounds} {space : StateSpace S A} :
    explore bounds initial moves = .ok space ↔
      IsReachable moves initial space ∧ space.states.size ≤ bounds.expansions :=
  ⟨fun h => ⟨isReachable_of_explore h, size_le_of_explore h⟩, fun h => h.1.explore_eq h.2⟩

theorem exists_isReachable {U : List S}
    (hdefined : ∀ x, Reached moves initial x → ∃ steps, moves x = .ok steps)
    (hU : ∀ x, Reached moves initial x → x ∈ U) : ∃ space, IsReachable moves initial space := by
  obtain ⟨space, hspace⟩ := exists_explore { horizon := U.length } hdefined hU le_rfl
  exact ⟨space, isReachable_of_explore hspace⟩

namespace SameShape

variable {moves' : T → Except δ (List (B × T))} (h : SameShape f moves initial moves' initial')
include h

theorem exists_isReachable {space' : StateSpace T B}
    (hspace' : IsReachable moves' initial' space') : ∃ space, IsReachable moves initial space := by
  have hsource : ∀ y : {y // y ∈ space'.states}, ∃ x, Reached moves initial x ∧ f x = y.1 :=
    fun y => h.reached_iff.mp ((hspace'.mem_states y.1).mp y.2)
  choose g hg using hsource
  have himage : ∀ x, Reached moves initial x → f x ∈ space'.states := fun x hx =>
    (hspace'.mem_states _).mpr (h.reached_iff.mpr ⟨x, hx, rfl⟩)
  refine StateSpace.exists_isReachable (U := space'.states.toList.attach.map
    fun y => g ⟨y.1, FinSet.mem_toList.mp y.2⟩) (fun x hx => ?_) (fun x hx => ?_)
  · exact (h.defined_iff x hx).mpr (hspace'.defined _ (himage x hx))
  · refine List.mem_map.mpr ⟨⟨f x, FinSet.mem_toList.mpr (himage x hx)⟩, List.mem_attach _ _, ?_⟩
    exact h.injective _ _ (hg _).1 hx (hg ⟨f x, himage x hx⟩).2

theorem exists_isReachable_image {space : StateSpace S A}
    (hspace : IsReachable moves initial space) :
    ∃ space', IsReachable moves' initial' space' := by
  refine StateSpace.exists_isReachable (U := space.states.toList.map f) (fun y hy => ?_)
    (fun y hy => ?_)
  · obtain ⟨x, hx, rfl⟩ := h.reached_iff.mp hy
    exact (h.defined_iff x hx).mp (hspace.defined x ((hspace.mem_states x).mpr hx))
  · obtain ⟨x, hx, rfl⟩ := h.reached_iff.mp hy
    exact List.mem_map_of_mem (FinSet.mem_toList.mpr ((hspace.mem_states x).mpr hx))

omit [Element T] [Element B] in
theorem injOn {space : StateSpace S A} (hspace : IsReachable moves initial space) {x y : S}
    (hx : x ∈ space.states) (hy : y ∈ space.states) (heq : f x = f y) : x = y :=
  h.injective x y ((hspace.mem_states x).mp hx) ((hspace.mem_states y).mp hy) heq

theorem states_eq {space : StateSpace S A} {space' : StateSpace T B}
    (hspace : IsReachable moves initial space) (hspace' : IsReachable moves' initial' space') :
    space'.states = space.states.image f := by
  refine FinSet.ext fun y => ?_
  rw [hspace'.mem_states, h.reached_iff, FinSet.mem_image]
  exact exists_congr fun x => and_congr_left fun _ => (hspace.mem_states x).symm

theorem size_eq {space : StateSpace S A} {space' : StateSpace T B}
    (hspace : IsReachable moves initial space) (hspace' : IsReachable moves' initial' space') :
    space'.states.size = space.states.size := by
  rw [h.states_eq hspace hspace']
  exact FinSet.size_image fun x hx y hy => h.injOn hspace hx hy

/-- One graph is explored within the bounds exactly when the other is. -/
theorem exists_explore_iff {bounds : Bounds} :
    (∃ space, explore bounds initial moves = .ok space) ↔
      ∃ space', explore bounds initial' moves' = .ok space' := by
  simp only [explore_eq_ok_iff]
  constructor
  · rintro ⟨space, hspace, hsize⟩
    obtain ⟨space', hspace'⟩ := h.exists_isReachable_image hspace
    exact ⟨space', hspace', (h.size_eq hspace hspace').trans_le hsize⟩
  · rintro ⟨space', hspace', hsize⟩
    obtain ⟨space, hspace⟩ := h.exists_isReachable hspace'
    exact ⟨space, hspace, (h.size_eq hspace hspace').symm.trans_le hsize⟩

end SameShape

/-- The space with its states renamed. -/
def map (f : S → T) (space : StateSpace S A) : StateSpace T A where
  states := space.states.image f
  initial := space.initial.image f
  transitions := space.transitions.image fun t => ⟨f t.source, t.action, f t.target⟩

namespace Renaming

theorem isReachable_map (h : Renaming f moves initial moves' initial') {space : StateSpace S A}
    (hspace : IsReachable moves initial space) : IsReachable moves' initial' (space.map f) := by
  have hreached : ∀ x, x ∈ space.states → Reached moves initial x :=
    fun x => (hspace.mem_states x).mp
  constructor
  case mem_states =>
    intro y
    rw [h.reached_iff, map, FinSet.mem_image]
    exact exists_congr fun x => and_congr_left fun _ => hspace.mem_states x
  case mem_initial =>
    intro y
    rw [h.mem_initial, map, FinSet.mem_image]
    exact exists_congr fun x => and_congr_left fun _ => hspace.mem_initial x
  case defined =>
    intro y hy
    obtain ⟨x, hx, rfl⟩ := FinSet.mem_image.mp hy
    obtain ⟨steps, hsteps⟩ := hspace.defined x hx
    obtain ⟨steps', hsteps', _⟩ := (h.renamed x (hreached x hx)).exists_image hsteps
    exact ⟨steps', hsteps'⟩
  case mem_transitions =>
    rintro ⟨y, a, z⟩
    constructor
    · intro ht
      obtain ⟨⟨x, b, w⟩, hu, he⟩ := FinSet.mem_image.mp ht
      cases he
      obtain ⟨hx, steps, hsteps, hw⟩ := (hspace.mem_transitions _).mp hu
      obtain ⟨steps', hsteps', hmem⟩ := (h.renamed x (hreached x hx)).exists_image hsteps
      exact ⟨FinSet.mem_image.mpr ⟨x, hx, rfl⟩, steps', hsteps', (hmem _ _).mpr ⟨w, hw, rfl⟩⟩
    · rintro ⟨hy, steps', hsteps', hz⟩
      obtain ⟨x, hx, rfl⟩ := FinSet.mem_image.mp hy
      obtain ⟨steps, hsteps, hmem⟩ := (h.renamed x (hreached x hx)).exists_source hsteps'
      obtain ⟨w, hw, rfl⟩ := (hmem _ _).mp hz
      have ht : (⟨x, a, w⟩ : Transition S A) ∈ space.transitions :=
        (hspace.mem_transitions _).mpr ⟨hx, steps, hsteps, hw⟩
      exact FinSet.mem_image.mpr ⟨_, ht, rfl⟩

theorem exists_isReachable (h : Renaming f moves initial moves' initial') {space' : StateSpace T A}
    (hspace' : IsReachable moves' initial' space') : ∃ space, IsReachable moves initial space :=
  h.sameShape.exists_isReachable hspace'

theorem size_map (h : Renaming f moves initial moves' initial') {space : StateSpace S A}
    (hspace : IsReachable moves initial space) : (space.map f).states.size = space.states.size :=
  h.sameShape.size_eq hspace (h.isReachable_map hspace)

/-- The renamed graph is explored within the same bounds, with the renamed result. -/
theorem explore_eq_ok_iff (h : Renaming f moves initial moves' initial') {bounds : Bounds}
    {space' : StateSpace T A} :
    explore bounds initial' moves' = .ok space' ↔
      ∃ space, explore bounds initial moves = .ok space ∧ space.map f = space' := by
  constructor
  · intro hexplore
    obtain ⟨hspace', hsize⟩ := StateSpace.explore_eq_ok_iff.mp hexplore
    obtain ⟨space, hspace⟩ := h.exists_isReachable hspace'
    obtain rfl := (h.isReachable_map hspace).unique hspace'
    rw [h.size_map hspace] at hsize
    exact ⟨space, hspace.explore_eq hsize, rfl⟩
  · rintro ⟨space, hexplore, rfl⟩
    obtain ⟨hspace, hsize⟩ := StateSpace.explore_eq_ok_iff.mp hexplore
    rw [← h.size_map hspace] at hsize
    exact (h.isReachable_map hspace).explore_eq hsize

end Renaming

theorem map_id (space : StateSpace S A) : space.map id = space := by
  have himage : ∀ s : FinSet S, s.image id = s := fun s => FinSet.ext fun x => by simp
  have htransitions : space.transitions.image (fun t => ⟨id t.source, t.action, id t.target⟩) =
      space.transitions := FinSet.ext fun t => by simp
  rw [map, himage, himage, htransitions]

theorem explore_congr {bounds : Bounds} {moves' : S → Except δ (List (A × S))}
    (h : ∀ x, Renamed id (moves x) (moves' x)) {space : StateSpace S A} :
    explore bounds initial moves' = .ok space ↔ explore bounds initial moves = .ok space := by
  have hrenaming : Renaming id moves initial moves' initial :=
    ⟨fun y => by simp, fun x _ => h x, fun x y _ _ heq => heq⟩
  rw [hrenaming.explore_eq_ok_iff]
  simp only [map_id, exists_eq_right]

/-- The reachable part of a state graph, as a system whose states have no labels yet. -/
structure IsReachablePart {P : Type} [Element P] (moves : S → Except ε (List (A × S)))
    (initial : List S) (ts : TransitionSystem S A P) : Prop where
  states : IsLeast {U : Set S | (∀ s ∈ initial, s ∈ U) ∧ ∀ s ∈ U, ∀ t, Leads moves s t → t ∈ U}
    {s | s ∈ ts.states}
  defined : ∀ s, s ∈ ts.states → ∃ steps, moves s = .ok steps
  mem_initial : ∀ s, s ∈ ts.initial ↔ s ∈ initial
  mem_transitions : ∀ s a t, ⟨s, a, t⟩ ∈ ts.transitions ↔
    s ∈ ts.states ∧ ∃ steps, moves s = .ok steps ∧ (a, t) ∈ steps
  mem_actions : ∀ a, a ∈ ts.actions ↔ ∃ s t, ⟨s, a, t⟩ ∈ ts.transitions
  unlabelled : ∀ s, ts.labelOf s = ∅
  reach : ts.reach = ts.states

theorem IsReachable.isLeast {space : StateSpace S A} (h : IsReachable moves initial space) :
    IsLeast {U : Set S | (∀ s ∈ initial, s ∈ U) ∧ ∀ s ∈ U, ∀ t, Leads moves s t → t ∈ U}
      {s | s ∈ space.states} := by
  refine ⟨⟨fun s hs => ?_, fun s hs t ht => ?_⟩, fun U hU x hx => ?_⟩
  · exact (h.mem_states s).mpr ⟨s, hs, 0, .nil s⟩
  · exact (h.mem_states t).mpr (((h.mem_states s).mp hs).step ht)
  · obtain ⟨s, hs, n, hwalk⟩ := (h.mem_states x).mp hx
    exact hwalk.invariant (hU.1 s hs) fun a b ha hab => hU.2 a ha b hab

variable {P : Type} [Element P]

theorem IsReachable.joined_iff {space : StateSpace S A} (h : IsReachable moves initial space)
    {name : Option String} {more : FinSet A} {props : FinSet P} {label : S → List P} {s t : S} :
    (space.toSystem name more props label).Joined s t ↔ s ∈ space.states ∧ Leads moves s t := by
  constructor
  · rintro ⟨a, ha⟩
    obtain ⟨hs, steps, hsteps, ht⟩ := (h.mem_transitions _).mp ha
    exact ⟨hs, steps, a, hsteps, ht⟩
  · rintro ⟨hs, steps, a, hsteps, ht⟩
    exact ⟨a, (h.mem_transitions _).mpr ⟨hs, steps, hsteps, ht⟩⟩

theorem IsReachable.reach_toSystem {space : StateSpace S A} (h : IsReachable moves initial space)
    {name : Option String} {more : FinSet A} {props : FinSet P} {label : S → List P} :
    (space.toSystem name more props label).reach = space.states := by
  refine FinSet.ext fun x => ?_
  rw [TransitionSystem.reach, TransitionSystem.mem_reachFrom]
  constructor
  · rintro ⟨s, hs, n, hwalk⟩
    have hs' : s ∈ initial := (h.mem_initial s).mp (FinSet.mem_toList.mp hs)
    refine (h.mem_states x).mpr ⟨s, hs', n, hwalk.mono fun a b hab => (h.joined_iff.mp hab).2⟩
  · intro hx
    obtain ⟨s, hs, n, hwalk⟩ := (h.mem_states x).mp hx
    refine ⟨s, FinSet.mem_toList.mpr ((h.mem_initial s).mpr hs), n, ?_⟩
    clear hx
    induction hwalk with
    | nil => exact .nil _
    | snoc hwalk hz ih =>
      exact ih.snoc (h.joined_iff.mpr ⟨(h.mem_states _).mpr ⟨s, hs, _, hwalk⟩, hz⟩)

theorem IsReachable.isReachablePart {space : StateSpace S A} (h : IsReachable moves initial space) :
    IsReachablePart moves initial
      (space.toSystem none ∅ ∅ fun _ => [] : TransitionSystem S A P) where
  states := h.isLeast
  defined := h.defined
  mem_initial := h.mem_initial
  mem_transitions s a t := h.mem_transitions ⟨s, a, t⟩
  mem_actions a := by
    rw [toSystem, FinSet.mem_union, FinSet.mem_image]
    constructor
    · rintro (ha | ⟨⟨s, b, t⟩, ht, rfl⟩)
      · exact absurd ha (FinSet.not_mem_empty a)
      · exact ⟨s, t, ht⟩
    · rintro ⟨s, t, ht⟩
      exact .inr ⟨_, ht, rfl⟩
  unlabelled s := by
    refine FinSet.ext fun p => ?_
    rw [TransitionSystem.mem_labelOf, toSystem, FinSet.mem_flatMap]
    simp
  reach := h.reach_toSystem

/-- What an exploration returns is the reachable part of the graph, and it does not depend on the
order and the repetitions in the lists that it is given. -/
theorem explore_isReachablePart (bounds : Bounds) (initial : List S)
    (moves : S → Except ε (List (A × S))) :
    (∀ space, explore bounds initial moves = .ok space →
      IsReachablePart moves initial (space.toSystem none ∅ ∅ fun _ => [] : TransitionSystem S A P)) ∧
    ∀ (initial' : List S) (moves' : S → Except δ (List (A × S))),
      (∀ s, s ∈ initial' ↔ s ∈ initial) → (∀ s, SameMoves (moves s) (moves' s)) →
        ∀ space, explore bounds initial' moves' = .ok space ↔
          explore bounds initial moves = .ok space := by
  constructor
  · intro space h
    exact (isReachable_of_explore h).isReachablePart
  · intro initial' moves' hinitial hmoves space
    have hrenaming : Renaming id moves initial moves' initial' :=
      ⟨fun y => by simp [hinitial], fun x _ => (hmoves x).renamed, fun x y _ _ h => h⟩
    rw [hrenaming.explore_eq_ok_iff]
    simp only [map_id, exists_eq_right]

/-- A fork with a way back; the states after 2 are not reached and have no moves. -/
def fork : Nat → Except String (List (Nat × Nat))
  | 0 => .ok [(0, 1), (1, 2), (0, 1)]
  | 1 => .ok [(0, 0)]
  | 2 => .ok []
  | _ => .error "no moves"

def forkReversed (s : Nat) : Except String (List (Nat × Nat)) := (fork s).map List.reverse

theorem sameMoves_forkReversed (s : Nat) : SameMoves (fork s) (forkReversed s) := by
  rw [forkReversed]
  cases fork s with
  | error e => exact .error e e
  | ok steps => exact .ok fun m => List.mem_reverse

theorem explore_fork_isReachablePart :
    ∃ space, explore { limit := some 3 } [0, 1, 0] fork = .ok space ∧
      space.states.toList = [0, 1, 2] ∧
      IsReachablePart fork [0, 1, 0]
        (space.toSystem none ∅ ∅ fun _ => [] : TransitionSystem Nat Nat String) ∧
      explore { limit := some 3 } [1, 0] forkReversed = .ok space := by
  have hexact := explore_isReachablePart (P := String) (δ := String) { limit := some 3 } [0, 1, 0] fork
  refine ⟨_, rfl, rfl, hexact.1 _ rfl, ?_⟩
  refine (hexact.2 [1, 0] forkReversed (fun s => ?_) sameMoves_forkReversed _).mpr rfl
  simp only [List.mem_cons, List.not_mem_nil, or_false]
  omega

end StateSpace

end OmegaCheck
