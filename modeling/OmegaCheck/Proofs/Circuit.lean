import OmegaCheck.Circuit
import OmegaCheck.Proofs.Generators
import OmegaCheck.Proofs.Isomorphism
import Mathlib.Data.List.ProdSigma

/-!
# Unfolded circuits

The transition system of a circuit runs as the circuit does. Its initial states are the values of the
inputs, with all registers low. From there every sequence of further inputs is read by one run only,
in which the registers are updated from the inputs of the state that is left. All states lie on such
runs, so that there are no more of them than values of inputs and registers.
-/

namespace OmegaCheck

namespace FinMap

variable {κ β : Type} [Element κ]

theorem isSome_get?_foldl_insert (l : List (κ × β)) (m : FinMap κ β) (k : κ) :
    ((l.foldl (fun m b => m.insert b.1 b.2) m).get? k).isSome = true ↔
      k ∈ l.map Prod.fst ∨ (m.get? k).isSome = true := by
  induction l generalizing m with
  | nil => simp
  | cons b l ih =>
    rw [List.foldl_cons, ih, get?_insert, List.map_cons, List.mem_cons]
    by_cases hk : k = b.1 <;> simp [hk]

theorem isSome_get?_ofList {l : List (κ × β)} {k : κ} :
    ((ofList l).get? k).isSome = true ↔ k ∈ l.map Prod.fst := by
  rw [ofList, isSome_get?_foldl_insert]
  simp

end FinMap

theorem FinSet.size_ofList_le {α : Type} [Element α] (l : List α) : (ofList l).size ≤ l.length := by
  rw [← length_toList]
  exact ((ofList l).toList_nodup.subperm fun a ha => mem_ofList.mp (mem_toList.mp ha)).length_le

namespace PortValues

theorem assigns_low (names : FinSet String) : Assigns names (low names) := by
  intro name
  rw [low, FinMap.isSome_get?_ofList]
  simp

theorem mem_high {v : PortValues} {name : String} : name ∈ high v ↔ v.get? name = some true := by
  simp [high, ← FinMap.mem_toList]

end PortValues

namespace TransitionSystem

variable {S A P : Type} [Element S] [Element A] [Element P]

/-- Labels are accepted at states, whatever their propositions: these are registered first. -/
theorem foldlM_addLabel {l : List (S × P)} {ts : TransitionSystem S A P}
    (h : ∀ x ∈ l, x.1 ∈ ts.states) :
    l.foldlM (fun ts x => (ts.addProposition x.2).addLabel x.1 x.2) ts =
      .ok { ts with
        propositions := ts.propositions.insertAll (l.map Prod.snd)
        labels := ts.labels.insertAll l } := by
  induction l generalizing ts with
  | nil => rfl
  | cons x l ih =>
    rw [List.forall_mem_cons] at h
    have hadd : (ts.addProposition x.2).addLabel x.1 x.2 = .ok { ts with
        propositions := ts.propositions.insert x.2, labels := ts.labels.insert x } :=
      if_pos ⟨FinSet.mem_insert.mpr (Or.inl rfl), h.1⟩
    rw [List.foldlM_cons, hadd]
    exact ih h.2

theorem labelStates_toSystem (space : StateSpace S A) (name : Option String) (more : FinSet A)
    (props : FinSet P) (label : S → List P) :
    (space.toSystem name more props fun _ => []).labelStates label =
      .ok (space.toSystem name more props label) := by
  have hpropositions : ((space.toSystem name more props fun _ => []).propositions).insertAll
      ((space.states.toList.flatMap fun s => (label s).map fun p => (s, p)).map Prod.snd) =
      props ∪ space.states.flatMap label := by
    refine FinSet.ext fun p => ?_
    simp [StateSpace.toSystem, or_comm]
  have hlabels : ((space.toSystem name more props fun _ => []).labels).insertAll
      (space.states.toList.flatMap fun s => (label s).map fun p => (s, p)) =
      space.states.flatMap fun s => (label s).map fun p => (s, p) := by
    refine FinSet.ext fun x => ?_
    simp [StateSpace.toSystem]
  have hstates : ∀ x ∈ space.states.toList.flatMap fun s => (label s).map fun p => (s, p),
      x.1 ∈ (space.toSystem name more props fun _ => [] : TransitionSystem S A P).states := by
    intro x hx
    obtain ⟨s, hs, hx⟩ := List.mem_flatMap.mp hx
    obtain ⟨p, _, rfl⟩ := List.mem_map.mp hx
    exact FinSet.mem_toList.mp hs
  have hfold := foldlM_addLabel hstates
  rw [hpropositions, hlabels] at hfold
  exact hfold

end TransitionSystem

namespace Circuit

open StateSpace

variable {c : Circuit} {i : Nat → PortValues} {k n : Nat}

/-- The registers after `k` steps: low at first, and then updated from the inputs before a step. -/
def registersAt (c : Circuit) (i : Nat → PortValues) : Nat → PortValues
  | 0 => PortValues.low c.registerNames
  | k + 1 => c.update (i k) (c.registersAt i k)

/-- Only the earlier inputs count. -/
theorem registersAt_congr {i' : Nat → PortValues} (h : ∀ j < k, i j = i' j) :
    c.registersAt i k = c.registersAt i' k := by
  induction k with
  | zero => rfl
  | succ k ih =>
    rw [registersAt, registersAt, h k (Nat.lt_succ_self k), ih fun j hj => h j (by omega)]

theorem assigns_update (c : Circuit) (inputs registers : PortValues) :
    PortValues.Assigns c.registerNames (c.update inputs registers) := by
  intro name
  rw [update, evalAll, FinMap.isSome_get?_ofList, registerNames, FinSet.mem_ofList, FinMap.keys,
    List.map_map]
  rfl

theorem assigns_registersAt (c : Circuit) (i : Nat → PortValues) (k : Nat) :
    PortValues.Assigns c.registerNames (c.registersAt i k) := by
  cases k with
  | zero => exact PortValues.assigns_low c.registerNames
  | succ k => exact c.assigns_update (i k) (c.registersAt i k)

/-- The states before the first step. -/
def starts (c : Circuit) : List (PortValues × PortValues) :=
  (PortValues.all c.inputs).map fun inputs => (inputs, PortValues.low c.registerNames)

theorem mem_starts {x : PortValues × PortValues} :
    x ∈ c.starts ↔ PortValues.Assigns c.inputs x.1 ∧ x.2 = PortValues.low c.registerNames := by
  obtain ⟨inputs, registers⟩ := x
  simp only [starts, List.mem_map, PortValues.mem_all, Prod.mk.injEq]
  constructor
  · rintro ⟨_, h, rfl, rfl⟩
    exact ⟨h, rfl⟩
  · rintro ⟨h, rfl⟩
    exact ⟨inputs, h, rfl, rfl⟩

theorem mem_movesFrom {s t : PortValues × PortValues} {a : PortValues} :
    (a, t) ∈ c.movesFrom (PortValues.all c.inputs) s ↔
      PortValues.Assigns c.inputs a ∧ t = (a, c.update s.1 s.2) := by
  simp only [movesFrom, List.mem_map, PortValues.mem_all, Prod.mk.injEq]
  constructor
  · rintro ⟨_, h, rfl, rfl⟩
    exact ⟨h, rfl⟩
  · rintro ⟨h, rfl⟩
    exact ⟨a, h, rfl, rfl⟩

/-- The steps of the transition system, which are always defined. -/
def steps (c : Circuit) (s : PortValues × PortValues) :
    Except (TransitionSystem.Error (PortValues × PortValues) PortValues String)
      (List (PortValues × (PortValues × PortValues))) :=
  .ok (c.movesFrom (PortValues.all c.inputs) s)

theorem leads_iff {s t : PortValues × PortValues} :
    Leads c.steps s t ↔ PortValues.Assigns c.inputs t.1 ∧ t.2 = c.update s.1 s.2 := by
  constructor
  · rintro ⟨_, a, ⟨⟩, h⟩
    obtain ⟨ha, rfl⟩ := mem_movesFrom.mp h
    exact ⟨ha, rfl⟩
  · rintro ⟨h, heq⟩
    exact ⟨_, t.1, rfl, mem_movesFrom.mpr ⟨h, Prod.ext rfl heq⟩⟩

theorem reached_registersAt (h : ∀ k ≤ n, PortValues.Assigns c.inputs (i k)) :
    Reached c.steps c.starts (i n, c.registersAt i n) := by
  induction n with
  | zero => exact ⟨_, mem_starts.mpr ⟨h 0 le_rfl, rfl⟩, 0, .nil _⟩
  | succ n ih =>
    have hn := ih fun k hk => h k (Nat.le_succ_of_le hk)
    exact hn.step (leads_iff.mpr ⟨h (n + 1) le_rfl, rfl⟩)

/-- The states that are reached are those that some inputs lead to. -/
theorem reached_iff {x : PortValues × PortValues} :
    Reached c.steps c.starts x ↔ ∃ i n, (∀ k ≤ n, PortValues.Assigns c.inputs (i k)) ∧
      x = (i n, c.registersAt i n) := by
  constructor
  · rintro ⟨s, hs, n, hwalk⟩
    induction hwalk with
    | nil =>
      obtain ⟨hinputs, hregisters⟩ := mem_starts.mp hs
      exact ⟨fun _ => s.1, 0, fun _ _ => hinputs, Prod.ext rfl hregisters⟩
    | @snoc y z _ _ hz ih =>
      obtain ⟨i, n, hi, rfl⟩ := ih
      obtain ⟨hinputs, hregisters⟩ := leads_iff.mp hz
      -- the inputs of the last step come after those that led to its source
      have hpast : ∀ k ≤ n, (if k ≤ n then i k else z.1) = i k := fun k hk => if_pos hk
      have hlast : (if n + 1 ≤ n then i (n + 1) else z.1) = z.1 := if_neg (by omega)
      refine ⟨fun k => if k ≤ n then i k else z.1, n + 1, fun k _ => ?_, Prod.ext hlast.symm ?_⟩
      · by_cases hk : k ≤ n
        · simpa only [hk, if_true] using hi k hk
        · simpa only [hk, if_false] using hinputs
      · simp only [registersAt, hpast n le_rfl]
        rw [hregisters, registersAt_congr fun j hj => (hpast j (by omega)).symm]
  · rintro ⟨i, n, hi, rfl⟩
    exact reached_registersAt hi

theorem size_registerNames_le (c : Circuit) : c.registerNames.size ≤ c.registers.size :=
  (FinSet.size_ofList_le _).trans c.registers.length_keys.le

/-- The unfolding always ends. -/
theorem exists_unfold (c : Circuit) : ∃ space, IsReachable c.steps c.starts space ∧
    c.unfold = .ok (space.toSystem none (FinSet.ofList (PortValues.all c.inputs))
      (c.inputs ∪ c.registerNames ∪ c.outputNames) fun s => c.highPorts s.1 s.2) := by
  have hU : ∀ x, Reached c.steps c.starts x →
      x ∈ PortValues.all c.inputs ×ˢ PortValues.all c.registerNames := by
    intro x hx
    obtain ⟨i, n, hi, rfl⟩ := reached_iff.mp hx
    rw [List.mem_product, PortValues.mem_all, PortValues.mem_all]
    exact ⟨hi n le_rfl, c.assigns_registersAt i n⟩
  have hbound : (PortValues.all c.inputs ×ˢ PortValues.all c.registerNames).length ≤
      2 ^ (c.inputs.size + c.registers.size) := by
    rw [List.length_product, PortValues.length_all, PortValues.length_all, ← Nat.pow_add]
    exact Nat.pow_le_pow_right Nat.two_pos (Nat.add_le_add_left c.size_registerNames_le _)
  obtain ⟨space, hspace⟩ := exists_explore
    { horizon := Nat.pow 2 (c.inputs.size + c.registers.size) } (fun x _ => ⟨_, rfl⟩) hU hbound
  refine ⟨space, isReachable_of_explore hspace, ?_⟩
  rw [unfold, bind_eq_ok_iff]
  exact ⟨space, hspace, mapError_eq_ok_iff.mpr (TransitionSystem.labelStates_toSystem _ _ _ _ _)⟩

/-- The transition system runs as the circuit does. -/
structure IsSimulation (c : Circuit)
    (ts : TransitionSystem (PortValues × PortValues) PortValues String) : Prop where
  initial : ∀ x, x ∈ ts.initial ↔
    PortValues.Assigns c.inputs x.1 ∧ x.2 = PortValues.low c.registerNames
  size_initial : ts.initial.size = 2 ^ c.inputs.size
  actions : ∀ a, a ∈ ts.actions ↔ PortValues.Assigns c.inputs a
  size_actions : ts.actions.size = 2 ^ c.inputs.size
  states : ∀ x, x ∈ ts.states ↔ ∃ i n, (∀ k ≤ n, PortValues.Assigns c.inputs (i k)) ∧
    x = (i n, c.registersAt i n)
  run_iff : ∀ i n, (∀ k ≤ n, PortValues.Assigns c.inputs (i k)) →
    ∀ x : Nat → PortValues × PortValues, x 0 = (i 0, PortValues.low c.registerNames) →
      ((∀ k < n, ⟨x k, i (k + 1), x (k + 1)⟩ ∈ ts.transitions) ↔
        ∀ k ≤ n, x k = (i k, c.registersAt i k))
  successor : ∀ s ∈ ts.states, ∀ a ∈ ts.actions, ∃! t, ⟨s, a, t⟩ ∈ ts.transitions
  label : ∀ s ∈ ts.states, ∀ name, name ∈ ts.labelOf s ↔ s.1.get? name = some true ∨
    s.2.get? name = some true ∨ (c.outputValues s.1 s.2).get? name = some true

theorem nodup_starts (c : Circuit) : c.starts.Nodup :=
  (PortValues.isAll_all c.inputs).nodup.map fun _ _ h => (Prod.mk.inj h).1

theorem mem_transitions_of_isReachable {space : StateSpace (PortValues × PortValues) PortValues}
    (h : IsReachable c.steps c.starts space) {s t : PortValues × PortValues} {a : PortValues} :
    ⟨s, a, t⟩ ∈ space.transitions ↔
      s ∈ space.states ∧ PortValues.Assigns c.inputs a ∧ t = (a, c.update s.1 s.2) := by
  rw [h.mem_transitions, ← mem_movesFrom]
  refine and_congr_right fun _ => ⟨?_, fun hmem => ⟨_, rfl, hmem⟩⟩
  rintro ⟨_, ⟨⟩, hmem⟩
  exact hmem

/-- A run is determined by its first state and its actions, step by step. -/
theorem run_iff_of_isReachable {space : StateSpace (PortValues × PortValues) PortValues}
    (h : IsReachable c.steps c.starts space) (hi : ∀ k ≤ n, PortValues.Assigns c.inputs (i k))
    {x : Nat → PortValues × PortValues} (hx : x 0 = (i 0, PortValues.low c.registerNames)) :
    (∀ k < n, ⟨x k, i (k + 1), x (k + 1)⟩ ∈ space.transitions) ↔
      ∀ k ≤ n, x k = (i k, c.registersAt i k) := by
  constructor
  · intro hsteps k hk
    induction k with
    | zero => exact hx
    | succ k ih =>
      obtain ⟨_, _, hnext⟩ := (mem_transitions_of_isReachable h).mp (hsteps k hk)
      rw [hnext, ih (Nat.le_of_succ_le hk)]
      rfl
  · intro hstates k hk
    rw [hstates k hk.le, hstates (k + 1) hk]
    refine (mem_transitions_of_isReachable h).mpr ⟨(h.mem_states _).mpr ?_, hi (k + 1) hk, rfl⟩
    exact reached_registersAt fun j hj => hi j (hj.trans hk.le)

theorem unfold_isSimulation (c : Circuit) : ∃ ts, c.unfold = .ok ts ∧ IsSimulation c ts := by
  obtain ⟨space, hspace, hunfold⟩ := c.exists_unfold
  have hinitial : ∀ x, x ∈ space.initial ↔ x ∈ c.starts := hspace.mem_initial
  have hactions : ∀ a, a ∈ FinSet.ofList (PortValues.all c.inputs) ∪
      space.transitions.image Transition.action ↔ a ∈ PortValues.all c.inputs := by
    intro a
    rw [FinSet.mem_union, FinSet.mem_ofList, FinSet.mem_image, or_iff_left_of_imp]
    rintro ⟨⟨s, a, t⟩, ht, rfl⟩
    exact PortValues.mem_all.mpr ((mem_transitions_of_isReachable hspace).mp ht).2.1
  refine ⟨_, hunfold, ?_⟩
  constructor
  case initial => exact fun x => (hinitial x).trans mem_starts
  case size_initial =>
    refine (FinSet.size_eq_length c.nodup_starts hinitial).trans ?_
    rw [starts, List.length_map, PortValues.length_all]
  case actions => exact fun a => (hactions a).trans PortValues.mem_all
  case size_actions =>
    exact (FinSet.size_eq_length (PortValues.isAll_all c.inputs).nodup hactions).trans
      (PortValues.length_all c.inputs)
  case states => exact fun x => (hspace.mem_states x).trans reached_iff
  case run_iff => exact fun i n hi x hx => run_iff_of_isReachable hspace hi hx
  case successor =>
    intro s hs a ha
    have hassigns := PortValues.mem_all.mp ((hactions a).mp ha)
    refine ⟨(a, c.update s.1 s.2), ?_, fun t ht => ?_⟩
    · exact (mem_transitions_of_isReachable hspace).mpr ⟨hs, hassigns, rfl⟩
    · exact ((mem_transitions_of_isReachable hspace).mp ht).2.2
  case label =>
    intro s hs name
    rw [labelOf_toSystem hs, FinSet.mem_ofList, highPorts]
    simp only [List.mem_append, PortValues.mem_high, or_assoc]

/-- A lamp that a button turns on and off, and its complement as an output. -/
def toggling : Circuit where
  inputs := FinSet.ofList ["press"]
  registers := FinMap.ofList [("lit", .xor (.port "press") (.port "lit"))]
  outputs := FinMap.ofList [("dark", .not (.port "lit"))]

/-- The values of the two ports that make up a state. -/
def togglingState (press lit : Bool) : PortValues × PortValues :=
  (FinMap.ofList [("press", press)], FinMap.ofList [("lit", lit)])

/-- The button is pressed for two steps: the lamp is lit after one and out after both. -/
theorem unfold_toggling_isSimulation : ∃ ts, toggling.unfold = .ok ts ∧ IsSimulation toggling ts ∧
    ts.states.size = 4 ∧ togglingState true false ∈ ts.initial ∧
    ⟨togglingState true false, FinMap.ofList [("press", true)], togglingState true true⟩ ∈
      ts.transitions ∧
    ⟨togglingState true true, FinMap.ofList [("press", false)], togglingState false false⟩ ∈
      ts.transitions ∧
    (ts.labelOf (togglingState true true)).toList = ["lit", "press"] ∧
    (ts.labelOf (togglingState false false)).toList = ["dark"] := by
  obtain ⟨ts, hts, hsimulation⟩ := unfold_isSimulation toggling
  refine ⟨ts, hts, hsimulation, ?_⟩
  cases hts
  exact ⟨rfl, by decide, by decide, by decide, by decide, by decide⟩

end Circuit

end OmegaCheck
