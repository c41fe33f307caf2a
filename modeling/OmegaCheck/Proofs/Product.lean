import OmegaCheck.Verification
import OmegaCheck.Proofs.StateSpace
import OmegaCheck.Proofs.Store
import Mathlib.Data.List.ProdSigma

/-!
# Products

The product of a system and an automaton, both built by changes, can always be formed. Its states
are those met by running the automaton along the system from an initial state, and its transitions
are the joint steps between them.
-/

namespace OmegaCheck

theorem mapM_eq_ok {ε α β : Type} {f : α → Except ε β} {g : α → β} {l : List α}
    (h : ∀ a ∈ l, f a = .ok (g a)) : l.mapM f = .ok (l.map g) := by
  induction l with
  | nil => rfl
  | cons a l ih =>
    rw [List.mapM_cons, h a List.mem_cons_self, ih fun b hb => h b (List.mem_cons_of_mem a hb)]
    rfl

namespace TransitionSystem

variable {S A P Q : Type} [Element S] [Element A] [Element P] [Element Q]
variable {ts : TransitionSystem S A P} {aut : BuchiAutomaton Q P}

/-- Whether some transition leads from `s` to `t`. -/
def Joined (ts : TransitionSystem S A P) (s t : S) : Prop := ∃ a, ⟨s, a, t⟩ ∈ ts.transitions

/-- Whether an automaton that starts in an initial state can be in `x.2` after it has read the
label of the initial state `x.1`. -/
def Enters (ts : TransitionSystem S A P) (aut : BuchiAutomaton Q P) (x : S × Q) : Prop :=
  x.1 ∈ ts.initial ∧ ∃ q, q ∈ aut.initial ∧ x.2 ∈ aut.next q (ts.labelOf x.1)

/-- A transition of the system under which the automaton reads the label of its target. -/
def JointStep (ts : TransitionSystem S A P) (aut : BuchiAutomaton Q P) (x : S × Q) (a : A)
    (y : S × Q) : Prop :=
  ⟨x.1, a, y.1⟩ ∈ ts.transitions ∧ y.2 ∈ aut.next x.2 (ts.labelOf y.1)

def Joint (ts : TransitionSystem S A P) (aut : BuchiAutomaton Q P) (x y : S × Q) : Prop :=
  ∃ a, ts.JointStep aut x a y

structure IsProduct (ts : TransitionSystem S A P) (aut : BuchiAutomaton Q P)
    (prod : TransitionSystem (S × Q) A Q) : Prop where
  mem_initial : ∀ x, x ∈ prod.initial ↔ ts.Enters aut x
  mem_states : ∀ x, x ∈ prod.states ↔ ∃ x₀ n, ts.Enters aut x₀ ∧ Walk (ts.Joint aut) x₀ n x
  mem_transitions : ∀ x a y, ⟨x, a, y⟩ ∈ prod.transitions ↔ x ∈ prod.states ∧ ts.JointStep aut x a y

theorem ofList_labelTable (ts : TransitionSystem S A P) (s : S) :
    FinSet.ofList (ts.labelTable.values s) = ts.labelOf s := by
  apply FinSet.ext
  intro p
  rw [FinSet.mem_ofList, mem_labelTable, mem_labelOf]

theorem mem_read {q r : Q} {s : S} :
    r ∈ aut.nextTable.values (q, FinSet.ofList (ts.labelTable.values s)) ↔
      r ∈ aut.next q (ts.labelOf s) := by
  rw [ofList_labelTable, Semiautomaton.mem_nextTable, Semiautomaton.mem_next]

omit [Element Q] in
theorem entries_eq_ok {read : Q → S → List Q} {qs : List Q} {s : S} (hs : s ∈ ts.states) :
    ts.entries read qs s = .ok (qs.flatMap fun q => (read q s).map fun r => (s, r)) := by
  rw [entries, checkState, if_pos hs]
  rfl

omit [Element Q] in
/-- Every target is a state, so that no label is missing. -/
theorem productMoves_eq_ok {read : Q → S → List Q} (hts : ts.WellFormed) (x : S × Q) :
    ts.productMoves read ts.successorTable.values x =
      .ok ((ts.successorTable.values x.1).flatMap fun m =>
        (read x.2 m.2).map fun r => (m.1, (m.2, r))) := by
  have hentries : ∀ m ∈ ts.successorTable.values x.1,
      (do return (← ts.entries read [x.2] m.2).map fun y => (m.1, y)) =
        Except.ok ((read x.2 m.2).map fun r => (m.1, (m.2, r))) := by
    rintro ⟨a, t⟩ hm
    rw [entries_eq_ok (hts.target _ (mem_successorTable.mp hm))]
    simp only [List.flatMap_cons, List.flatMap_nil, List.append_nil]
    exact congrArg Except.ok (List.map_map ..)
  rw [productMoves, mapM_eq_ok hentries, List.flatMap_def]
  rfl

variable (ts aut) in
/-- The joint steps of a product state, all labels being known. -/
def productSteps (x : S × Q) : List (A × (S × Q)) :=
  (ts.successorTable.values x.1).flatMap fun m =>
    (aut.nextTable.values (x.2, FinSet.ofList (ts.labelTable.values m.2))).map fun r =>
      (m.1, (m.2, r))

theorem mem_productSteps {x y : S × Q} {a : A} :
    (a, y) ∈ ts.productSteps aut x ↔ ts.JointStep aut x a y := by
  obtain ⟨t, r⟩ := y
  simp only [productSteps, List.mem_flatMap, List.mem_map, Prod.mk.injEq, JointStep]
  constructor
  · rintro ⟨⟨b, u⟩, hm, r', hr, rfl, rfl, rfl⟩
    exact ⟨mem_successorTable.mp hm, mem_read.mp hr⟩
  · rintro ⟨ht, hr⟩
    exact ⟨(a, t), mem_successorTable.mpr ht, r, mem_read.mpr hr, rfl, rfl, rfl⟩

variable (ts aut) in
/-- The initial product states, all labels being known. -/
def productStarts : List (S × Q) :=
  ts.initial.toList.flatMap fun s => aut.initial.toList.flatMap fun q =>
    (aut.nextTable.values (q, FinSet.ofList (ts.labelTable.values s))).map fun r => (s, r)

theorem mem_productStarts {x : S × Q} : x ∈ ts.productStarts aut ↔ ts.Enters aut x := by
  obtain ⟨s, r⟩ := x
  simp only [productStarts, List.mem_flatMap, List.mem_map, FinSet.mem_toList, Prod.mk.injEq, Enters]
  constructor
  · rintro ⟨s', hs, q, hq, r', hr, rfl, rfl⟩
    exact ⟨hs, q, hq, mem_read.mp hr⟩
  · rintro ⟨hs, q, hq, hr⟩
    exact ⟨s, hs, q, hq, r, mem_read.mpr hr, rfl, rfl⟩

/-- The moves with which the product is explored; none of them is missing. -/
def totalMoves (ts : TransitionSystem S A P) (aut : BuchiAutomaton Q P) (x : S × Q) :
    Except (ProductError S A P Q) (List (A × (S × Q))) := .ok (ts.productSteps aut x)

theorem leads_totalMoves {x y : S × Q} :
    StateSpace.Leads (ts.totalMoves aut) x y ↔ ts.Joint aut x y := by
  constructor
  · rintro ⟨steps, a, h, hy⟩
    cases h
    exact ⟨a, mem_productSteps.mp hy⟩
  · rintro ⟨a, hy⟩
    exact ⟨_, a, rfl, mem_productSteps.mpr hy⟩

theorem reached_totalMoves {x : S × Q} :
    StateSpace.Reached (ts.totalMoves aut) (ts.productStarts aut) x ↔
      ∃ x₀ n, ts.Enters aut x₀ ∧ Walk (ts.Joint aut) x₀ n x := by
  constructor
  · rintro ⟨x₀, hx₀, n, hwalk⟩
    exact ⟨x₀, n, mem_productStarts.mp hx₀, hwalk.mono fun _ _ => leads_totalMoves.mp⟩
  · rintro ⟨x₀, n, hx₀, hwalk⟩
    exact ⟨x₀, mem_productStarts.mpr hx₀, n, hwalk.mono fun _ _ => leads_totalMoves.mpr⟩

/-- The automaton stays among its states and the system among its own. -/
theorem mem_of_walk (hts : ts.WellFormed) (haut : aut.WellFormed) {x₀ x : S × Q} {n : Nat}
    (hx₀ : ts.Enters aut x₀) (hwalk : Walk (ts.Joint aut) x₀ n x) :
    x.1 ∈ ts.states ∧ x.2 ∈ aut.states := by
  have hnext : ∀ {q r : Q} {label : FinSet P}, r ∈ aut.next q label → r ∈ aut.states :=
    fun hr => haut.target _ (Semiautomaton.mem_next.mp hr)
  induction hwalk with
  | nil =>
    obtain ⟨hs, q, _, hr⟩ := hx₀
    exact ⟨hts.initial _ hs, hnext hr⟩
  | snoc _ hz =>
    obtain ⟨_, ht, hr⟩ := hz
    exact ⟨hts.target _ ht, hnext hr⟩

theorem mem_of_reached (hts : ts.WellFormed) (haut : aut.WellFormed) {x : S × Q}
    (hx : StateSpace.Reached (ts.totalMoves aut) (ts.productStarts aut) x) :
    x.1 ∈ ts.states ∧ x.2 ∈ aut.states := by
  obtain ⟨x₀, n, hx₀, hwalk⟩ := reached_totalMoves.mp hx
  exact mem_of_walk hts haut hx₀ hwalk

/-- The product states are pairs of states, so that the horizon is not met. -/
theorem exists_explore_totalMoves (hts : ts.WellFormed) (haut : aut.WellFormed) :
    ∃ space, StateSpace.explore { horizon := ts.states.size * aut.states.size }
      (ts.productStarts aut) (ts.totalMoves aut) = .ok space := by
  have hsize : (ts.states.toList ×ˢ aut.states.toList).length = ts.states.size * aut.states.size := by
    rw [List.length_product, FinSet.length_toList, FinSet.length_toList]
  refine StateSpace.exists_explore _ (fun x _ => ⟨_, rfl⟩) (fun x hx => ?_) hsize.le
  obtain ⟨hs, hq⟩ := mem_of_reached hts haut hx
  exact List.pair_mem_product.mpr ⟨FinSet.mem_toList.mpr hs, FinSet.mem_toList.mpr hq⟩

/-- No label is missing and no product state is unknown to the automaton. -/
theorem product_eq_ok (hts : ts.WellFormed) (haut : aut.WellFormed) {space : StateSpace (S × Q) A}
    (hspace : StateSpace.explore { horizon := ts.states.size * aut.states.size }
      (ts.productStarts aut) (ts.totalMoves aut) = .ok space) :
    ts.product aut = .ok (space.toSystem none ts.actions aut.states fun x => [x.2]) := by
  have hinitial : ts.initial.toList.mapM (ts.entries (fun q s =>
      aut.nextTable.values (q, FinSet.ofList (ts.labelTable.values s))) aut.initial.toList) =
      .ok (ts.initial.toList.map fun s => aut.initial.toList.flatMap fun q =>
        (aut.nextTable.values (q, FinSet.ofList (ts.labelTable.values s))).map fun r => (s, r)) :=
    mapM_eq_ok fun s hs => entries_eq_ok (hts.initial s (FinSet.mem_toList.mp hs))
  have hmoves : (fun x => (ts.productMoves (fun q s =>
      aut.nextTable.values (q, FinSet.ofList (ts.labelTable.values s)))
      ts.successorTable.values x).mapError ProductError.system) = ts.totalMoves aut := by
    funext x
    rw [productMoves_eq_ok hts]
    rfl
  have hfind : (space.states.toList.find? fun x => x.2 ∉ aut.states) = none := by
    rw [List.find?_eq_none]
    intro x hx
    have hreach := (StateSpace.isReachable_of_explore hspace).mem_states x
    simpa using (mem_of_reached hts haut (hreach.mp (FinSet.mem_toList.mp hx))).2
  rw [productStarts, List.flatMap_def] at hspace
  rw [product]
  simp only [hinitial, hmoves]
  simp only [Except.mapError, bind, Except.bind, hspace, hfind]
  rfl

theorem isProduct_of_explore {bounds : Bounds} {space : StateSpace (S × Q) A} {name : Option String}
    {more : FinSet A} {props : FinSet Q} {label : S × Q → List Q}
    (hspace : StateSpace.explore bounds (ts.productStarts aut) (ts.totalMoves aut) = .ok space) :
    ts.IsProduct aut (space.toSystem name more props label) := by
  have hreach := StateSpace.isReachable_of_explore hspace
  refine ⟨fun x => ?_, fun x => ?_, fun x a y => ?_⟩
  · exact (hreach.mem_initial x).trans mem_productStarts
  · exact (hreach.mem_states x).trans reached_totalMoves
  · refine (hreach.mem_transitions ⟨x, a, y⟩).trans (and_congr_right fun _ => ?_)
    constructor
    · rintro ⟨steps, h, hy⟩
      cases h
      exact mem_productSteps.mp hy
    · exact fun hy => ⟨_, rfl, mem_productSteps.mpr hy⟩

theorem exists_isProduct (hts : ts.WellFormed) (haut : aut.WellFormed) :
    ∃ prod, ts.product aut = .ok prod ∧ ts.IsProduct aut prod := by
  obtain ⟨space, hspace⟩ := exists_explore_totalMoves hts haut
  exact ⟨_, product_eq_ok hts haut hspace, isProduct_of_explore hspace⟩

end TransitionSystem

end OmegaCheck
