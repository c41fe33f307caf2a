import OmegaCheck.Proofs.ChannelSystem.Steps
import OmegaCheck.Proofs.ProgramGraph.Edits

/-!
# Two ways to compose program graphs

Two program graphs without rendezvous can be interleaved and then unfolded, or unfolded together as
a channel system. Both ways succeed or fail together, and they give the same system up to the form
in which a pair of locations is written.
-/

namespace OmegaCheck

open StateSpace

variable {L A : Type} [Element L] [Element A] {pg qg : ProgramGraph L A} {es : Evaluators}

namespace ChannelSystem

theorem offers_pair {l m : L} {i : Nat} {e : Edge L A} :
    (mk [pg, qg]).Offers [l, m] i e ↔
      i = 0 ∧ e ∈ pg.edges ∧ e.source = l ∨ i = 1 ∧ e ∈ qg.edges ∧ e.source = m := by
  match i with
  | 0 => simp [Offers, eq_comm]
  | 1 => simp [Offers, eq_comm]
  | i + 2 => simp [Offers]

section Alone

variable [ToString A] {cs : ChannelSystem L A} {ls : List L} {m : Memory} {i : Nat} {e : Edge L A}
  (hmark : Channel.isRendezvous e.actionText = false)
include hmark

theorem definedWith_iff :
    cs.DefinedWith es ls m i e ↔ (edgeTrial es m).Defined e :=
  ⟨fun h => h.alone hmark, fun h => ⟨fun _ => h, fun hmark' => by simp [hmark] at hmark'⟩⟩

theorem stepWith_iff [OfText A] {y : A × (List L × Memory)} :
    cs.StepWith es ls m i e y ↔
      ∃ n, (edgeTrial es m).Gives e n ∧ y = (e.action, (ls.set i e.target, n)) := by
  constructor
  · rintro (⟨_, hgives⟩ | ⟨_, _, _, hready, _⟩)
    · exact ⟨_, hgives, rfl⟩
    · simp [handshakeTrial, Channel.isHandshake, hmark] at hready
  · rintro ⟨n, hgives, rfl⟩
    exact .alone hmark hgives

end Alone

theorem mem_orEmpty_initializations_pair {init : List String} :
    init ∈ orEmpty (mk [pg, qg]).initializations ↔
      init ∈ orEmpty (pg.interleave qg).initializations.toList := by
  rw [mem_orEmpty_initializations, ProgramGraph.mem_orEmpty_interleave, jointInitialization_cons]
  refine exists_congr fun first => and_congr_right fun _ => ?_
  constructor
  · rintro ⟨_, hrest, rfl⟩
    obtain ⟨second, hsecond, _, ⟨parts, hparts, rfl⟩, rfl⟩ := jointInitialization_cons.mp hrest
    cases hparts
    exact ⟨second, hsecond, by simp⟩
  · rintro ⟨second, hsecond, rfl⟩
    refine ⟨second, jointInitialization_cons.mpr ⟨second, hsecond, [], ⟨[], .nil, rfl⟩, ?_⟩, rfl⟩
    exact List.append_nil second

end ChannelSystem

/-- A pair of locations as the locations of two components. -/
def asComponents (x : (L × L) × Memory) : List L × Memory := ([x.1.1, x.1.2], x.2)

omit [Element L] in
theorem asComponents_injective : Function.Injective (asComponents (L := L)) := by
  rintro ⟨⟨l, m⟩, memory⟩ ⟨⟨l', m'⟩, memory'⟩ heq
  cases heq
  rfl

variable [ToString A]

/-- No action is half a rendezvous. -/
def ProgramGraph.NoRendezvous (pg : ProgramGraph L A) : Prop :=
  ∀ e, e ∈ pg.edges → e.actionText.toList.head? ≠ some '_'

theorem ProgramGraph.NoRendezvous.isRendezvous (h : pg.NoRendezvous) {e : Edge L A}
    (he : e ∈ pg.edges) : Channel.isRendezvous e.actionText = false :=
  decide_eq_false (h e he)

section Correspondence

variable [OfText A] (hpg : pg.WellFormed) (hqg : qg.WellFormed)
variable (hmark : pg.NoRendezvous) (hmark' : qg.NoRendezvous)
include hmark hmark'

theorem renamed_movesFrom_interleave {x : (L × L) × Memory} (hl : x.1.1 ∈ pg.locations)
    (hm : x.1.2 ∈ qg.locations) :
    Renamed asComponents ((pg.interleave qg).movesFrom es x)
      ((ChannelSystem.mk [pg, qg]).movesFrom es (asComponents x)) := by
  obtain ⟨⟨l, m⟩, memory⟩ := x
  refine (ProgramGraph.collects_movesFrom_interleave hl hm).renamed
    (ChannelSystem.collects_movesFrom _) ?_ fun _ a y => ?_
  · constructor
    · rintro ⟨hleft, hright⟩ i e he
      obtain ⟨rfl, he, hsource⟩ | ⟨rfl, he, hsource⟩ := ChannelSystem.offers_pair.mp he
      · exact (ChannelSystem.definedWith_iff (hmark.isRendezvous he)).mpr (hleft e he hsource)
      · exact (ChannelSystem.definedWith_iff (hmark'.isRendezvous he)).mpr (hright e he hsource)
    · intro h
      refine ⟨fun e he hsource => ?_, fun e he hsource => ?_⟩
      · exact (ChannelSystem.definedWith_iff (hmark.isRendezvous he)).mp
          (h 0 e (ChannelSystem.offers_pair.mpr (.inl ⟨rfl, he, hsource⟩)))
      · exact (ChannelSystem.definedWith_iff (hmark'.isRendezvous he)).mp
          (h 1 e (ChannelSystem.offers_pair.mpr (.inr ⟨rfl, he, hsource⟩)))
  · constructor
    · rintro ⟨i, e, he, hstep⟩
      obtain ⟨rfl, he, hsource⟩ | ⟨rfl, he, hsource⟩ := ChannelSystem.offers_pair.mp he
      · obtain ⟨n, hgives, heq⟩ := (ChannelSystem.stepWith_iff (hmark.isRendezvous he)).mp hstep
        cases heq
        exact ⟨((e.target, m), n), .inl ⟨e, he, hsource, n, hgives, rfl⟩, rfl⟩
      · obtain ⟨n, hgives, heq⟩ := (ChannelSystem.stepWith_iff (hmark'.isRendezvous he)).mp hstep
        cases heq
        exact ⟨((l, e.target), n), .inr ⟨e, he, hsource, n, hgives, rfl⟩, rfl⟩
    · rintro ⟨z, ⟨e, he, hsource, n, hgives, heq⟩ | ⟨e, he, hsource, n, hgives, heq⟩, rfl⟩
      · cases heq
        exact ⟨0, e, ChannelSystem.offers_pair.mpr (.inl ⟨rfl, he, hsource⟩),
          (ChannelSystem.stepWith_iff (hmark.isRendezvous he)).mpr ⟨n, hgives, rfl⟩⟩
      · cases heq
        exact ⟨1, e, ChannelSystem.offers_pair.mpr (.inr ⟨rfl, he, hsource⟩),
          (ChannelSystem.stepWith_iff (hmark'.isRendezvous he)).mpr ⟨n, hgives, rfl⟩⟩

include hpg hqg

theorem renaming_asComponents (memories : FinSet Memory) :
    Renaming asComponents ((pg.interleave qg).movesFrom es)
      ((pg.interleave qg).initial.product memories).toList
      ((ChannelSystem.mk [pg, qg]).movesFrom es)
      ((FinSet.choices [pg.initial, qg.initial]).product memories).toList where
  mem_initial y := by
    obtain ⟨ls, memory⟩ := y
    simp only [FinSet.mem_toList, FinSet.mem_product, FinSet.mem_choices, asComponents,
      ProgramGraph.interleave, Prod.exists, Prod.mk.injEq]
    constructor
    · rintro ⟨hls, hmemory⟩
      obtain ⟨l, _, hl, hrest, rfl⟩ := List.forall₂_cons_left_iff.mp hls
      obtain ⟨m, _, hm, hnil, rfl⟩ := List.forall₂_cons_left_iff.mp hrest
      obtain rfl := List.forall₂_nil_left_iff.mp hnil
      exact ⟨l, m, memory, ⟨⟨hl, hm⟩, hmemory⟩, rfl, rfl⟩
    · rintro ⟨l, m, _, ⟨⟨hl, hm⟩, hmemory⟩, rfl, rfl⟩
      exact ⟨.cons hl (.cons hm .nil), hmemory⟩
  renamed x hx := by
    have hlocation := (hpg.interleave hqg).mem_locations_of_reached hx
    obtain ⟨hl, hm⟩ := FinSet.mem_product.mp hlocation
    exact renamed_movesFrom_interleave hmark hmark' hl hm
  injective _ _ _ _ heq := asComponents_injective heq

theorem unfold_pair_eq_ok_iff [LocationText L] {bounds : Bounds}
    {us : TransitionSystem (List L × Memory) A String} :
    (ChannelSystem.mk [pg, qg]).unfold es bounds = .ok us ↔ ∃ memories space,
      initialMemories es (pg.interleave qg).initializations.toList = .ok memories ∧
      explore bounds ((pg.interleave qg).initial.product memories).toList
        ((pg.interleave qg).movesFrom es) = .ok space ∧
      (space.map asComponents).toSystem none ∅ ∅
        (fun s => s.1.map locationText ++ s.2.propositions) = us := by
  rw [ChannelSystem.unfold_eq_ok_iff]
  refine exists_congr fun memories => ?_
  have hmemories : initialMemories es (ChannelSystem.mk [pg, qg]).initializations = .ok memories ↔
      initialMemories es (pg.interleave qg).initializations.toList = .ok memories :=
    initialMemories_congr (fun _ => ChannelSystem.mem_orEmpty_initializations_pair)
      fun _ _ _ => Iff.rfl
  have hexplore : ∀ space', explore bounds
      ((FinSet.choices [pg.initial, qg.initial]).product memories).toList
        ((ChannelSystem.mk [pg, qg]).movesFrom es) = .ok space' ↔ _ :=
    fun _ => (renaming_asComponents hpg hqg hmark hmark' memories).explore_eq_ok_iff
  constructor
  · rintro ⟨space', hinitial, hspace', rfl⟩
    obtain ⟨space, hspace, rfl⟩ := (hexplore space').mp hspace'
    exact ⟨space, hmemories.mp hinitial, hspace, rfl⟩
  · rintro ⟨space, hinitial, hspace, rfl⟩
    have hspace' := (hexplore _).mpr ⟨space, hspace, rfl⟩
    exact ⟨space.map asComponents, hmemories.mpr hinitial, hspace', rfl⟩

end Correspondence

variable [LocationText L]

/-- The same system up to the form of its states; the first labels a state with the text of the pair
of locations, the second with both texts. -/
structure IsRegrouped (ts : TransitionSystem ((L × L) × Memory) A String)
    (us : TransitionSystem (List L × Memory) A String) : Prop where
  isomorphism : TransitionSystem.IsIsomorphism (fun x => ([x.1.1, x.1.2], x.2)) ts us
  pairLabel : ∀ l m memory, ((l, m), memory) ∈ ts.states →
    ts.labelOf ((l, m), memory) = FinSet.ofList
      (("<" ++ locationText l ++ ", " ++ locationText m ++ ">") :: memory.propositions)
  componentLabel : ∀ l m memory, ((l, m), memory) ∈ ts.states →
    us.labelOf ([l, m], memory) = FinSet.ofList
      (locationText l :: locationText m :: memory.propositions)

/-- Interleaving two graphs without rendezvous and unfolding them, or unfolding them as a channel
system, succeed together and give the same system. -/
theorem unfold_interleave_isRegrouped [OfText A] {pg qg : ProgramGraph L A} (hpg : pg.Built)
    (hqg : qg.Built) (hmark : ∀ e, e ∈ pg.edges → e.actionText.toList.head? ≠ some '_')
    (hmark' : ∀ e, e ∈ qg.edges → e.actionText.toList.head? ≠ some '_') (es : Evaluators)
    (bounds : Bounds) :
    pg.interleaveChecked qg = .ok (pg.interleave qg) ∧
    ((∃ ts, (pg.interleave qg).unfold es bounds = .ok ts) ↔
      ∃ us, (ChannelSystem.mk [pg, qg]).unfold es bounds = .ok us) ∧
    ∀ ts us, (pg.interleave qg).unfold es bounds = .ok ts →
      (ChannelSystem.mk [pg, qg]).unfold es bounds = .ok us → IsRegrouped ts us := by
  have hpair : ∀ us, (ChannelSystem.mk [pg, qg]).unfold es bounds = .ok us ↔ _ :=
    fun _ => unfold_pair_eq_ok_iff hpg.wellFormed hqg.wellFormed hmark hmark'
  refine ⟨ProgramGraph.interleaveChecked_eq_ok hpg.wellFormed hqg.wellFormed, ?_, ?_⟩
  · constructor
    · rintro ⟨ts, hts⟩
      obtain ⟨memories, space, hmemories, hspace, _⟩ := ProgramGraph.unfold_eq_ok_iff.mp hts
      exact ⟨_, (hpair _).mpr ⟨memories, space, hmemories, hspace, rfl⟩⟩
    · rintro ⟨us, hus⟩
      obtain ⟨memories, space, hmemories, hspace, _⟩ := (hpair us).mp hus
      exact ⟨_, ProgramGraph.unfold_eq_ok_iff.mpr ⟨memories, space, hmemories, hspace, rfl⟩⟩
  · intro ts us hts hus
    obtain ⟨memories, space, hmemories, hspace, rfl⟩ := ProgramGraph.unfold_eq_ok_iff.mp hts
    obtain ⟨memories', space', hmemories', hspace', rfl⟩ := (hpair us).mp hus
    obtain rfl : memories = memories' := Except.ok.inj (hmemories.symm.trans hmemories')
    obtain rfl : space = space' := Except.ok.inj (hspace.symm.trans hspace')
    constructor
    case isomorphism =>
      have hrenaming : Renaming asComponents ((pg.interleave qg).movesFrom es) _ _ _ :=
        renaming_asComponents hpg.wellFormed hqg.wellFormed hmark hmark' memories
      have hreachable := isReachable_of_explore hspace
      exact hrenaming.isIsomorphism hreachable (hrenaming.isReachable_map hreachable)
    case pairLabel => exact fun l m memory hmem => labelOf_toSystem hmem
    case componentLabel =>
      exact fun l m memory hmem => labelOf_toSystem (FinSet.mem_image.mpr ⟨_, hmem, rfl⟩)

/-- Two initializations and a guarded step. -/
def switching : ProgramGraph Nat :=
  .ofChanges [.addLocations [0, 1], .addInitial 0, .addInitialization ["dim"],
    .addInitialization ["lit"], .addEdge ⟨0, "lit", "dim", 1⟩]

/-- No initialization and a step from each location. -/
def blinking : ProgramGraph Nat :=
  .ofChanges [.addLocations [7, 8], .addInitial 7, .addEdge ⟨7, "true", "lit", 8⟩,
    .addEdge ⟨8, "true", "dim", 7⟩]

/-- One lamp that is dim or lit. -/
def lamp : Evaluator where
  guard? m text := some (.ok (text = "true" || m.get? "lamp" = some (.int 1)))
  effect? m text := some (.ok (m.set "lamp" (.int (if text = "lit" then 1 else 0))))

theorem unfold_switching_blinking_isRegrouped :
    ∃ joint ts us, switching.interleaveChecked blinking = .ok joint ∧
      joint.unfold [lamp] { limit := some 6 } = .ok ts ∧
      (ChannelSystem.mk [switching, blinking]).unfold [lamp] { limit := some 6 } = .ok us ∧
      ts.states.size = 6 ∧ IsRegrouped ts us := by
  have hswitching : ∀ e ∈ switching.edges.toList, e.action.toList.head? ≠ some '_' := by decide
  have hblinking : ∀ e ∈ blinking.edges.toList, e.action.toList.head? ≠ some '_' := by decide
  obtain ⟨hjoint, hboth, hregrouped⟩ := unfold_interleave_isRegrouped
    (show switching.Built from ⟨_, rfl⟩) (show blinking.Built from ⟨_, rfl⟩)
    (fun e he => hswitching e (FinSet.mem_toList.mpr he))
    (fun e he => hblinking e (FinSet.mem_toList.mpr he)) [lamp] { limit := some 6 }
  obtain ⟨ts, hts, hsize⟩ : ∃ ts, (switching.interleave blinking).unfold [lamp]
      { limit := some 6 } = .ok ts ∧ ts.states.size = 6 := ⟨_, rfl, rfl⟩
  obtain ⟨us, hus⟩ := hboth.mp ⟨ts, hts⟩
  exact ⟨_, ts, us, hjoint, hts, hus, hsize, hregrouped ts us hts hus⟩

end OmegaCheck
