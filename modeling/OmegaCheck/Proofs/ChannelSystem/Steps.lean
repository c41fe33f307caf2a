import OmegaCheck.ChannelSystem
import OmegaCheck.Proofs.Generators
import OmegaCheck.Proofs.ProgramGraph.Unfolding

/-!
# The steps of a channel system

A channel system moves by an edge of one component alone or by a handshake of two, whatever
evaluates its guards and actions. It starts from every choice of initial locations, in the memories
that one initialization of each component makes, run in the order of the components.
-/

namespace OmegaCheck

namespace ChannelSystem

variable {L A : Type} {es : Evaluators} {m : Memory} {ls : List L} {i j : Nat} {e f : Edge L A}

section Handshakes

variable [ToString A]

/-- Tries the partners of the receive `e` of component `i` among the edges of component `j`. -/
def handshakeTrial (es : Evaluators) (m : Memory) (i : Nat) (e : Edge L A) (j : Nat) :
    Trial EvalError (Edge L A) Memory where
  ready f := Channel.isHandshake e.actionText f.actionText
  guard f := es.guard m f.guard
  effect f := es.effect m (Channel.handshakeLabel i e.actionText j f.actionText)

variable [OfText A]

def jointMove (ls : List L) (i : Nat) (e : Edge L A) (j : Nat) (f : Edge L A) (n : Memory) :
    A × (List L × Memory) :=
  (ofText (Channel.handshakeLabel i e.actionText j f.actionText),
    ((ls.set i e.target).set j f.target, n))

theorem handshakes_eq (edges : List (Edge L A)) :
    handshakes es m ls i e j edges =
      (do let found ← (handshakeTrial es m i e j).gather edges
          return found.map fun x => jointMove ls i e j x.1 x.2) := by
  induction edges with
  | nil => rfl
  | cons f edges ih =>
    rw [handshakes, Trial.gather, ih]
    change (if Channel.isHandshake e.actionText f.actionText = true then _ else _) =
      (if Channel.isHandshake e.actionText f.actionText = true then _ else _) >>= _
    split
    · change (es.guard m f.guard >>= _) = (es.guard m f.guard >>= _) >>= _
      cases es.guard m f.guard with
      | error err => rfl
      | ok b =>
        cases b with
        | false => rfl
        | true =>
          change (es.effect m _ >>= _) = (es.effect m _ >>= _) >>= _
          cases es.effect m (Channel.handshakeLabel i e.actionText j f.actionText) with
          | error err => rfl
          | ok n => cases (handshakeTrial es m i e j).gather edges <;> rfl
    · rfl

end Handshakes

variable [Element L] [Element A] {cs : ChannelSystem L A}

/-- Component `i` is where its edge `e` begins. -/
def Offers (cs : ChannelSystem L A) (ls : List L) (i : Nat) (e : Edge L A) : Prop :=
  ∃ pg, cs.components[i]? = some pg ∧ e ∈ pg.edges ∧ ls[i]? = some e.source

theorem mem_placed {pg : ProgramGraph L A} {l : L} :
    (i, pg, l) ∈ cs.placed ls ↔ cs.components[i]? = some pg ∧ ls[i]? = some l := by
  rw [placed, List.mem_map]
  constructor
  · rintro ⟨⟨x, k⟩, hx, heq⟩
    cases heq
    rw [List.mem_zipIdx_iff_getElem?, List.getElem?_zip_eq_some] at hx
    exact hx
  · rintro ⟨hpg, hl⟩
    refine ⟨((pg, l), i), ?_, rfl⟩
    rw [List.mem_zipIdx_iff_getElem?, List.getElem?_zip_eq_some]
    exact ⟨hpg, hl⟩

theorem offers_iff :
    cs.Offers ls i e ↔ ∃ x ∈ cs.placed ls, x.1 = i ∧ e ∈ x.2.1.edgesFrom x.2.2 := by
  constructor
  · rintro ⟨pg, hpg, he, hsource⟩
    exact ⟨(i, pg, e.source), mem_placed.mpr ⟨hpg, hsource⟩, rfl,
      ProgramGraph.mem_edgesFrom.mpr ⟨he, rfl⟩⟩
  · rintro ⟨⟨k, pg, l⟩, hx, rfl, he⟩
    obtain ⟨hpg, hl⟩ := mem_placed.mp hx
    obtain ⟨he, rfl⟩ := ProgramGraph.mem_edgesFrom.mp he
    exact ⟨pg, hpg, he, hl⟩

section Moves

variable [ToString A] [OfText A]

/-- The steps with an edge of component `i` that begins there: alone, or as the receiver. -/
inductive StepWith (cs : ChannelSystem L A) (es : Evaluators) (ls : List L) (m : Memory) (i : Nat)
    (e : Edge L A) : A × (List L × Memory) → Prop
  | alone {n : Memory} (hmark : Channel.isRendezvous e.actionText = false)
      (hgives : (edgeTrial es m).Gives e n) :
      StepWith cs es ls m i e (e.action, (ls.set i e.target, n))
  | joint {j : Nat} {f : Edge L A} {n : Memory} (hf : cs.Offers ls j f) (hij : j ≠ i)
      (hguard : es.guard m e.guard = .ok true) (hgives : (handshakeTrial es m i e j).Gives f n) :
      StepWith cs es ls m i e (jointMove ls i e j f n)

/-- Nothing fails that is asked about edge `e` of component `i`. -/
structure DefinedWith (cs : ChannelSystem L A) (es : Evaluators) (ls : List L) (m : Memory)
    (i : Nat) (e : Edge L A) : Prop where
  alone : Channel.isRendezvous e.actionText = false → (edgeTrial es m).Defined e
  joint : Channel.isRendezvous e.actionText = true → (Channel.source? e.actionText).isSome = true →
    ∃ b, es.guard m e.guard = .ok b ∧
      (b = true → ∀ j f, cs.Offers ls j f → j ≠ i → (handshakeTrial es m i e j).Defined f)

theorem collects_edgeMoves_alone (hmark : Channel.isRendezvous e.actionText = false) :
    Collects (cs.edgeMoves es ls m i e) ((edgeTrial es m).Defined e)
      fun y => ∃ n, (edgeTrial es m).Gives e n ∧ (e.action, (ls.set i e.target, n)) = y := by
  rw [edgeMoves, if_neg (by simp [hmark])]
  refine ((collects_enabledEdges es m [e]).map _).congr (by simp) fun _ y => ?_
  simp only [List.mem_singleton, Prod.exists]
  constructor
  · rintro ⟨_, n, ⟨rfl, hgives⟩, rfl⟩
    exact ⟨n, hgives, rfl⟩
  · rintro ⟨n, hgives, rfl⟩
    exact ⟨e, n, ⟨rfl, hgives⟩, rfl⟩

theorem collects_partners :
    Collects
      (do let moves ← ((cs.placed ls).filter fun x => x.1 ≠ i).mapM fun x =>
            handshakes es m ls i e x.1 (x.2.1.edgesFrom x.2.2)
          return moves.flatten)
      (∀ j f, cs.Offers ls j f → j ≠ i → (handshakeTrial es m i e j).Defined f)
      fun y => ∃ j f n, cs.Offers ls j f ∧ j ≠ i ∧ (handshakeTrial es m i e j).Gives f n ∧
        jointMove ls i e j f n = y := by
  have hpartner : ∀ x ∈ (cs.placed ls).filter fun x => x.1 ≠ i,
      Collects (handshakes es m ls i e x.1 (x.2.1.edgesFrom x.2.2))
        (∀ f ∈ x.2.1.edgesFrom x.2.2, (handshakeTrial es m i e x.1).Defined f)
        fun y => ∃ z : Edge L A × Memory, (z.1 ∈ x.2.1.edgesFrom x.2.2 ∧
          (handshakeTrial es m i e x.1).Gives z.1 z.2) ∧ jointMove ls i e x.1 z.1 z.2 = y := by
    intro x _
    rw [handshakes_eq]
    exact ((handshakeTrial es m i e x.1).collects_gather _).map _
  have hmem : ∀ x, x ∈ (cs.placed ls).filter (fun x => x.1 ≠ i) ↔ x ∈ cs.placed ls ∧ x.1 ≠ i := by
    simp
  refine (Collects.flatten hpartner).congr ?_ fun _ y => ?_
  · simp only [hmem]
    constructor
    · intro h j f hf hij
      obtain ⟨x, hx, rfl, hfrom⟩ := offers_iff.mp hf
      exact h x ⟨hx, hij⟩ f hfrom
    · intro h x hx f hf
      exact h x.1 f (offers_iff.mpr ⟨x, hx.1, rfl, hf⟩) hx.2
  · simp only [hmem]
    constructor
    · rintro ⟨x, hx, ⟨f, n⟩, ⟨hf, hgives⟩, rfl⟩
      exact ⟨x.1, f, n, offers_iff.mpr ⟨x, hx.1, rfl, hf⟩, hx.2, hgives, rfl⟩
    · rintro ⟨j, f, n, hf, hij, hgives, rfl⟩
      obtain ⟨x, hx, rfl, hfrom⟩ := offers_iff.mp hf
      exact ⟨x, ⟨hx, hij⟩, (f, n), ⟨hfrom, hgives⟩, rfl⟩

theorem collects_edgeMoves :
    Collects (cs.edgeMoves es ls m i e) (cs.DefinedWith es ls m i e) (cs.StepWith es ls m i e) := by
  cases hmark : Channel.isRendezvous e.actionText with
  | false =>
    refine (collects_edgeMoves_alone hmark).congr ?_ fun _ y => ?_
    · exact ⟨fun h => ⟨fun _ => h, fun h' => by simp [hmark] at h'⟩, fun h => h.alone hmark⟩
    · constructor
      · rintro ⟨n, hgives, rfl⟩
        exact .alone hmark hgives
      · rintro (⟨_, hgives⟩ | ⟨_, _, _, hgives⟩)
        · exact ⟨_, hgives, rfl⟩
        · have hready := hgives.1
          simp [handshakeTrial, Channel.isHandshake, hmark] at hready
  | true =>
    rw [edgeMoves, if_pos hmark]
    refine ((collects_partners.guarded (es.guard m e.guard)).onlyIf
      (Channel.source? e.actionText).isSome).congr ?_ fun _ y => ?_
    · exact ⟨fun h => ⟨fun h' => by simp [hmark] at h', fun _ => h⟩, fun h => h.joint hmark⟩
    · constructor
      · rintro ⟨_, hguard, j, f, n, hf, hij, hgives, rfl⟩
        exact .joint hf hij hguard hgives
      · rintro (⟨h', _⟩ | ⟨hf, hij, hguard, hgives⟩)
        · simp [hmark] at h'
        · have hready := hgives.1
          simp only [handshakeTrial, Channel.isHandshake, Bool.and_eq_true] at hready
          exact ⟨hready.1.1.2, hguard, _, _, _, hf, hij, hgives, rfl⟩

/-- The steps of a channel system, and what has to be defined for it to have them. -/
theorem collects_movesFrom (x : List L × Memory) :
    Collects (cs.movesFrom es x)
      (∀ i e, cs.Offers x.1 i e → cs.DefinedWith es x.1 x.2 i e)
      fun y => ∃ i e, cs.Offers x.1 i e ∧ cs.StepWith es x.1 x.2 i e y := by
  have hcomponent : ∀ z ∈ cs.placed x.1,
      Collects (do let ofEdges ← (z.2.1.edgesFrom z.2.2).mapM (cs.edgeMoves es x.1 x.2 z.1)
                   return ofEdges.flatten)
        (∀ e ∈ z.2.1.edgesFrom z.2.2, cs.DefinedWith es x.1 x.2 z.1 e)
        fun y => ∃ e ∈ z.2.1.edgesFrom z.2.2, cs.StepWith es x.1 x.2 z.1 e y :=
    fun z _ => Collects.flatten fun e _ => collects_edgeMoves
  refine (Collects.flatten hcomponent).congr ?_ fun _ y => ?_
  · constructor
    · intro h i e he
      obtain ⟨z, hz, rfl, hfrom⟩ := offers_iff.mp he
      exact h z hz e hfrom
    · intro h z hz e he
      exact h z.1 e (offers_iff.mpr ⟨z, hz, rfl, he⟩)
  · constructor
    · rintro ⟨z, hz, e, he, hstep⟩
      exact ⟨z.1, e, offers_iff.mpr ⟨z, hz, rfl, he⟩, hstep⟩
    · rintro ⟨i, e, he, hstep⟩
      obtain ⟨z, hz, rfl, hfrom⟩ := offers_iff.mp he
      exact ⟨z, hz, e, hfrom, hstep⟩

end Moves

/-- One initialization of each component, or the empty one where a component has none. -/
def JointInitialization (pgs : List (ProgramGraph L A)) (init : List String) : Prop :=
  ∃ parts, List.Forall₂ (fun pg part => part ∈ orEmpty pg.initializations.toList) pgs parts ∧
    parts.flatten = init

theorem jointInitialization_cons {pg : ProgramGraph L A} {pgs : List (ProgramGraph L A)}
    {init : List String} :
    JointInitialization (pg :: pgs) init ↔ ∃ first ∈ orEmpty pg.initializations.toList,
      ∃ rest, JointInitialization pgs rest ∧ first ++ rest = init := by
  constructor
  · rintro ⟨parts, hparts, rfl⟩
    obtain ⟨first, rest, hfirst, hrest, rfl⟩ := List.forall₂_cons_left_iff.mp hparts
    exact ⟨first, hfirst, rest.flatten, ⟨rest, hrest, rfl⟩, rfl⟩
  · rintro ⟨first, hfirst, _, ⟨rest, hrest, rfl⟩, rfl⟩
    exact ⟨first :: rest, .cons hfirst hrest, rfl⟩

theorem mem_initializations {init : List String} :
    init ∈ cs.initializations ↔ JointInitialization cs.components init := by
  obtain ⟨pgs⟩ := cs
  rw [initializations]
  simp only [List.mem_map, FinSet.mem_toList]
  induction pgs generalizing init with
  | nil => simp [FinSet.choices, JointInitialization]
  | cons pg pgs ih =>
    rw [jointInitialization_cons]
    simp only [← ih, List.map_cons]
    cases hempty : pg.initializations.isEmpty with
    | true =>
      have hnil : pg.initializations.toList = [] := List.isEmpty_iff.mp hempty
      simp [hempty, hnil, orEmpty]
    | false =>
      have hne : orEmpty pg.initializations.toList = pg.initializations.toList :=
        if_neg (Bool.eq_false_iff.mp hempty)
      simp only [List.filter_cons, hempty, Bool.not_false, if_true, FinSet.mem_choices,
        List.forall₂_cons_left_iff, hne, FinSet.mem_toList]
      constructor
      · rintro ⟨_, ⟨first, rest, hfirst, hrest, rfl⟩, rfl⟩
        exact ⟨first, hfirst, rest.flatten, ⟨rest, hrest, rfl⟩, rfl⟩
      · rintro ⟨first, hfirst, _, ⟨rest, hrest, rfl⟩, rfl⟩
        exact ⟨first :: rest, ⟨first, rest, hfirst, hrest, rfl⟩, rfl⟩

theorem exists_jointInitialization (pgs : List (ProgramGraph L A)) :
    ∃ init, JointInitialization pgs init := by
  induction pgs with
  | nil => exact ⟨[], [], .nil, rfl⟩
  | cons pg pgs ih =>
    obtain ⟨rest, hrest⟩ := ih
    obtain ⟨first, hfirst⟩ := exists_mem_orEmpty pg.initializations.toList
    exact ⟨first ++ rest, jointInitialization_cons.mpr ⟨first, hfirst, rest, hrest, rfl⟩⟩

theorem mem_orEmpty_initializations {init : List String} :
    init ∈ orEmpty cs.initializations ↔ JointInitialization cs.components init := by
  obtain ⟨some, hsome⟩ := exists_jointInitialization cs.components
  have hne : cs.initializations ≠ [] := List.ne_nil_of_mem (mem_initializations.mpr hsome)
  rw [mem_orEmpty, mem_initializations]
  simp [hne]

section Unfolding

variable [ToString A] [OfText A]

theorem unfold_eq_ok_iff [LocationText L] {bounds : Bounds}
    {ts : TransitionSystem (List L × Memory) A String} :
    cs.unfold es bounds = .ok ts ↔ ∃ memories space,
      initialMemories es cs.initializations = .ok memories ∧
      StateSpace.explore bounds
        ((FinSet.choices (cs.components.map ProgramGraph.initial)).product memories).toList
        (cs.movesFrom es) = .ok space ∧
      space.toSystem none ∅ ∅ (fun s => s.1.map locationText ++ s.2.propositions) = ts := by
  rw [unfold, bind_eq_ok_iff]
  refine exists_congr fun memories => ?_
  rw [mapError_eq_ok_iff, bind_eq_ok_iff, ← exists_and_left]
  refine exists_congr fun space => and_congr_right fun _ => and_congr_right fun _ => ?_
  exact iff_of_eq (Except.ok.injEq _ _)

/-- All edges of the components. -/
def edges (cs : ChannelSystem L A) : List (Edge L A) :=
  cs.components.flatMap fun pg => pg.edges.toList

omit [ToString A] [OfText A] in
theorem Offers.mem_edges (h : cs.Offers ls i e) : e ∈ cs.edges := by
  obtain ⟨pg, hpg, he, _⟩ := h
  exact List.mem_flatMap.mpr ⟨pg, List.mem_of_getElem? hpg, FinSet.mem_toList.mpr he⟩

/-- The evaluators find the same values for all texts of a channel system, or none. -/
structure AgreeOn (cs : ChannelSystem L A) (es es' : Evaluators) : Prop where
  initialMemory : ∀ init ∈ orEmpty cs.initializations, ∀ m,
    es.initialMemory init = .ok m ↔ es'.initialMemory init = .ok m
  guard : ∀ e ∈ cs.edges, ∀ m b, es.guard m e.guard = .ok b ↔ es'.guard m e.guard = .ok b
  effect : ∀ e ∈ cs.edges, Channel.isRendezvous e.actionText = false →
    ∀ m n, es.effect m e.actionText = .ok n ↔ es'.effect m e.actionText = .ok n
  joint : ∀ e ∈ cs.edges, ∀ f ∈ cs.edges, Channel.isHandshake e.actionText f.actionText = true →
    ∀ i j m n, es.effect m (Channel.handshakeLabel i e.actionText j f.actionText) = .ok n ↔
      es'.effect m (Channel.handshakeLabel i e.actionText j f.actionText) = .ok n

namespace AgreeOn

variable {es' : Evaluators}

omit [OfText A] in
theorem symm (h : cs.AgreeOn es es') : cs.AgreeOn es' es where
  initialMemory init hinit m := (h.initialMemory init hinit m).symm
  guard e he m b := (h.guard e he m b).symm
  effect e he hmark m n := (h.effect e he hmark m n).symm
  joint e he f hf hmark i j m n := (h.joint e he f hf hmark i j m n).symm

omit [OfText A] in
theorem definedWith (h : cs.AgreeOn es es') (he : cs.Offers ls i e)
    (hd : cs.DefinedWith es ls m i e) : cs.DefinedWith es' ls m i e where
  alone hmark := (edgeTrial_defined_congr (h.guard e he.mem_edges m)
    (h.effect e he.mem_edges hmark m)).mp (hd.alone hmark)
  joint hmark hsource := by
    obtain ⟨b, hguard, hpartners⟩ := hd.joint hmark hsource
    refine ⟨b, (h.guard e he.mem_edges m b).mp hguard, fun hb j f hf hij hready => ?_⟩
    obtain ⟨b', hguard', heffect⟩ := hpartners hb j f hf hij hready
    refine ⟨b', (h.guard f hf.mem_edges m b').mp hguard', fun hb' => ?_⟩
    obtain ⟨n, hn⟩ := heffect hb'
    exact ⟨n, (h.joint e he.mem_edges f hf.mem_edges hready i j m n).mp hn⟩

theorem stepWith (h : cs.AgreeOn es es') (he : cs.Offers ls i e) {y : A × (List L × Memory)}
    (hstep : cs.StepWith es ls m i e y) : cs.StepWith es' ls m i e y := by
  cases hstep with
  | alone hmark hgives =>
    exact .alone hmark ((edgeTrial_gives_congr (h.guard e he.mem_edges m)
      (h.effect e he.mem_edges hmark m)).mp hgives)
  | joint hf hij hguard hgives =>
    obtain ⟨hready, hguard', heffect⟩ := hgives
    exact .joint hf hij ((h.guard e he.mem_edges m true).mp hguard)
      ⟨hready, (h.guard _ hf.mem_edges m true).mp hguard',
        (h.joint e he.mem_edges _ hf.mem_edges hready i _ m _).mp heffect⟩

theorem renamed (h : cs.AgreeOn es es') (x : List L × Memory) :
    StateSpace.Renamed id (cs.movesFrom es' x) (cs.movesFrom es x) := by
  refine (collects_movesFrom x).renamed (collects_movesFrom x) ?_ fun _ a y => ?_
  · exact ⟨fun hd i e he => h.symm.definedWith he (hd i e he),
      fun hd i e he => h.definedWith he (hd i e he)⟩
  · simp only [id, exists_eq_right]
    exact ⟨fun ⟨i, e, he, hstep⟩ => ⟨i, e, he, h.stepWith he hstep⟩,
      fun ⟨i, e, he, hstep⟩ => ⟨i, e, he, h.symm.stepWith he hstep⟩⟩

end AgreeOn

theorem unfold_congr [LocationText L] {es' : Evaluators} (h : cs.AgreeOn es es') {bounds : Bounds}
    {ts : TransitionSystem (List L × Memory) A String} :
    cs.unfold es bounds = .ok ts ↔ cs.unfold es' bounds = .ok ts := by
  rw [unfold_eq_ok_iff, unfold_eq_ok_iff]
  refine exists_congr fun memories => exists_congr fun space => ?_
  refine and_congr (initialMemories_congr (fun _ => Iff.rfl) h.initialMemory) ?_
  exact and_congr_left fun _ => StateSpace.explore_congr h.renamed

end Unfolding

end ChannelSystem

end OmegaCheck
