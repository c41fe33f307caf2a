import OmegaCheck.Proofs.ChannelSystem.Meaning
import OmegaCheck.Proofs.Relabelling
import Mathlib.Logic.Equiv.Fin.Basic
import Mathlib.Data.List.OfFn

/-!
# The order of the components

Putting the components of a channel system in another order does the same to the locations in its
states. The one thing that the order shows in is the label of a rendezvous, which names the
component with the smaller index first.
-/

namespace OmegaCheck

section Rearrange

variable {α β : Type} {n : Nat} (σ : Equiv.Perm (Fin n)) {l : List α}

/-- The list with entry `σ k` at position `k`; a list of another length is left as it is. -/
def rearrange (σ : Equiv.Perm (Fin n)) (l : List α) : List α :=
  if h : l.length = n then List.ofFn fun k => l.get ((σ k).cast h.symm) else l

theorem rearrange_of_length_ne (h : l.length ≠ n) : rearrange σ l = l := dif_neg h

@[simp]
theorem length_rearrange : (rearrange σ l).length = l.length := by
  rw [rearrange]
  split
  · next h => rw [List.length_ofFn, h]
  · rfl

theorem getElem?_rearrange (h : l.length = n) (k : Fin n) :
    (rearrange σ l)[k.val]? = l[(σ k).val]? := by
  rw [rearrange, dif_pos h, List.getElem?_ofFn, dif_pos k.isLt, List.getElem?_eq_getElem]
  rfl

theorem ext_of_length {l' : List α} (h : l.length = n) (h' : l'.length = n)
    (hget : ∀ k : Fin n, l[k.val]? = l'[k.val]?) : l = l' := by
  refine List.ext_getElem? fun i => ?_
  by_cases hi : i < n
  · exact hget ⟨i, hi⟩
  · rw [List.getElem?_eq_none (by omega), List.getElem?_eq_none (by omega)]

@[simp]
theorem rearrange_symm_rearrange : rearrange σ.symm (rearrange σ l) = l := by
  by_cases h : l.length = n
  · have h' : (rearrange σ l).length = n := by rwa [length_rearrange]
    refine ext_of_length (by rwa [length_rearrange]) h fun k => ?_
    rw [getElem?_rearrange σ.symm h', getElem?_rearrange σ h, Equiv.apply_symm_apply]
  · rw [rearrange_of_length_ne σ h, rearrange_of_length_ne σ.symm h]

@[simp]
theorem rearrange_rearrange_symm : rearrange σ (rearrange σ.symm l) = l :=
  rearrange_symm_rearrange σ.symm

theorem rearrange_injective : Function.Injective (rearrange σ (α := α)) :=
  Function.LeftInverse.injective fun _ => rearrange_symm_rearrange σ

theorem rearrange_set (h : l.length = n) (k : Fin n) (a : α) :
    rearrange σ (l.set (σ k) a) = (rearrange σ l).set k a := by
  have hset : (l.set (σ k) a).length = n := by rwa [List.length_set]
  refine ext_of_length (by simpa) (by simpa) fun j => ?_
  rw [getElem?_rearrange σ hset, List.getElem?_set, List.getElem?_set, getElem?_rearrange σ h,
    length_rearrange, h]
  by_cases hjk : k = j
  · simp [hjk]
  · have hval : ¬ (σ k).val = (σ j).val := fun heq => hjk (σ.injective (Fin.ext heq))
    have hval' : ¬ k.val = j.val := fun heq => hjk (Fin.ext heq)
    rw [if_neg hval, if_neg hval']

theorem rearrange_perm : (rearrange σ l).Perm l := by
  rw [rearrange]
  split
  · next h =>
    subst h
    have hperm := Equiv.Perm.ofFn_comp_perm σ l.get
    rwa [List.ofFn_get] at hperm
  · exact .rfl

theorem forall₂_rearrange {R : α → β → Prop} {l' : List β} (h : List.Forall₂ R l l') :
    List.Forall₂ R (rearrange σ l) (rearrange σ l') := by
  have hlength := h.length_eq
  by_cases hn : l.length = n
  · rw [rearrange, rearrange, dif_pos hn, dif_pos (hlength ▸ hn), List.forall₂_iff_get]
    refine ⟨by simp, fun i _ _ => ?_⟩
    rw [List.get_ofFn, List.get_ofFn]
    exact (List.forall₂_iff_get.mp h).2 _ _ _
  · rwa [rearrange_of_length_ne σ hn, rearrange_of_length_ne σ (hlength ▸ hn)]

end Rearrange

/-- A receive and a send on one rendezvous channel. -/
def Action.Meets (a b : Action) : Prop :=
  ∃ c x value, a = receive c x ∧ b = send c value ∧ isRendezvousChannel c = true

/-- The same action, or the two halves of a rendezvous in the other order. -/
inductive SameAction : String → String → Prop
  | same (text : String) : SameAction text text
  | exchanged {a b : Action} (h : a.Meets b ∨ b.Meets a) :
      SameAction (a.pairText b) (b.pairText a)

theorem SameAction.symm {s t : String} (h : SameAction s t) : SameAction t s := by
  cases h with
  | same => exact .same s
  | exchanged h => exact .exchanged h.symm

theorem sameAction_handshakeLabel {e f : Edge String} {c x : String} {value : Expr}
    (hreceive : e.Does (some (.receive c x))) (hsend : f.Does (some (.send c value)))
    (hc : c.toList.head? = some '_') (i j i' j' : Nat) :
    SameAction (Channel.handshakeLabel i e.action j f.action)
      (Channel.handshakeLabel i' e.action j' f.action) := by
  have hmeets : (Action.receive c x).Meets (.send c value) :=
    ⟨c, x, value, rfl, rfl, decide_eq_true hc⟩
  rw [hreceive.text, hsend.text, Channel.handshakeLabel, Channel.handshakeLabel]
  split
  · split
    · exact .same _
    · exact .exchanged (.inl hmeets)
  · split
    · exact .exchanged (.inr hmeets)
    · exact .same _

namespace ChannelSystem

/-- The system with component `σ k` in place `k`. -/
def reordered {L : Type} [Element L] {n : Nat} (cs : ChannelSystem L) (σ : Equiv.Perm (Fin n)) :
    ChannelSystem L :=
  ⟨rearrange σ cs.components⟩

variable {n : Nat} {σ : Equiv.Perm (Fin n)} {cs : ChannelSystem String} {ls : List String}
variable {m : Memory} {e f : Edge String}

@[simp]
theorem reordered_symm_reordered : (cs.reordered σ).reordered σ.symm = cs := by
  simp [reordered]

theorem length_reordered (hn : cs.components.length = n) :
    (cs.reordered σ).components.length = n := by
  rw [reordered, length_rearrange, hn]

section Moves

variable (hn : cs.components.length = n)
include hn

theorem offers_reordered_iff (hls : ls.length = n) (k : Fin n) :
    (cs.reordered σ).Offers (rearrange σ ls) k e ↔ cs.Offers ls (σ k) e := by
  simp only [Offers, reordered, getElem?_rearrange σ hn, getElem?_rearrange σ hls]

theorem Offers.exists_fin {i : Nat} (h : cs.Offers ls i e) : ∃ k : Fin n, k.val = i := by
  obtain ⟨pg, hpg, _⟩ := h
  have hi := (List.getElem?_eq_some_iff.mp hpg).1
  exact ⟨⟨i, hn ▸ hi⟩, rfl⟩

theorem Offers.exists_reordered (hls : ls.length = n) {i : Nat} (h : cs.Offers ls i e) :
    ∃ k : Fin n, (σ k).val = i ∧ (cs.reordered σ).Offers (rearrange σ ls) k e := by
  obtain ⟨j, rfl⟩ := h.exists_fin hn
  have hj : σ (σ.symm j) = j := σ.apply_symm_apply j
  exact ⟨σ.symm j, congrArg Fin.val hj, (offers_reordered_iff hn hls _).mpr (by rwa [hj])⟩

theorem Moves.reordered {x y : List String × Memory} {a : String} (hx : x.1.length = n)
    (h : cs.Moves x a y) : ∃ b, SameAction a b ∧
      (cs.reordered σ).Moves (rearrange σ x.1, x.2) b (rearrange σ y.1, y.2) := by
  cases h with
  | alone he ha hmark hguard hqueue hrun =>
    obtain ⟨k, rfl, hk⟩ := he.exists_reordered (σ := σ) hn hx
    refine ⟨_, .same _, ?_⟩
    rw [rearrange_set σ hx]
    exact .alone hk ha hmark hguard hqueue hrun
  | joint he hf hij hreceive hsend hc hguard hguard' hvalue =>
    obtain ⟨k, rfl, hk⟩ := he.exists_reordered (σ := σ) hn hx
    obtain ⟨j, rfl, hj⟩ := hf.exists_reordered (σ := σ) hn hx
    have hkj : k.val ≠ j.val := fun heq => hij (congrArg (fun k => (σ k).val) (Fin.ext heq))
    refine ⟨_, sameAction_handshakeLabel hreceive hsend hc _ _ k j, ?_⟩
    rw [rearrange_set σ (by rwa [List.length_set]), rearrange_set σ hx]
    exact .joint hk hj hkj hreceive hsend hc hguard hguard' hvalue

theorem Moves.of_reordered {x y : List String × Memory} {b : String} (hx : x.1.length = n)
    (h : (cs.reordered σ).Moves (rearrange σ x.1, x.2) b y) :
    ∃ a z, SameAction a b ∧ cs.Moves x a z ∧ (rearrange σ z.1, z.2) = y := by
  -- Reordering by the inverse gives the first system back.
  obtain ⟨a, hsame, hmove⟩ := h.reordered (σ := σ.symm) (length_reordered hn) (by simpa using hx)
  rw [reordered_symm_reordered, rearrange_symm_rearrange] at hmove
  exact ⟨a, (rearrange σ.symm y.1, y.2), hsame.symm, hmove, by simp⟩

end Moves

/-- Whether a handshake can be carried out does not depend on the places of its components. -/
theorem defined_handshakeTrial {a b : Option Action} (ha : e.Does a) (hb : f.Does b)
    {i j : Nat} (h : (handshakeTrial Evaluators.standard m i e j).Defined f) (i' j' : Nat) :
    (handshakeTrial Evaluators.standard m i' e j').Defined f := by
  intro hready
  obtain ⟨g, hguard, heffect⟩ := h hready
  obtain ⟨c, x, value, hreceive, hsend, _⟩ := exists_of_isHandshake ha hb hready
  refine ⟨g, hguard, fun hg => ?_⟩
  obtain ⟨m', hm'⟩ := heffect hg
  have hvalue := (handshakeLabel_effect_eq_ok_iff hreceive hsend).mp hm'
  exact ⟨m', (handshakeLabel_effect_eq_ok_iff hreceive hsend).mpr hvalue⟩

theorem definedWith_reordered (hcs : ∀ pg ∈ cs.components, pg.IsProcess)
    (hn : cs.components.length = n) (hls : ls.length = n)
    (h : ∀ i e, cs.Offers ls i e → cs.DefinedWith Evaluators.standard ls m i e) (i : Nat)
    (e : Edge String) (he : (cs.reordered σ).Offers (rearrange σ ls) i e) :
    (cs.reordered σ).DefinedWith Evaluators.standard (rearrange σ ls) m i e := by
  obtain ⟨k, rfl⟩ := he.exists_fin (length_reordered hn)
  have he := (offers_reordered_iff hn hls k).mp he
  obtain ⟨a, ha⟩ := exists_does_of_offers hcs he
  refine ⟨(h _ e he).alone, fun hmark hsource => ?_⟩
  obtain ⟨g, hguard, hpartners⟩ := (h _ e he).joint hmark hsource
  refine ⟨g, hguard, fun hg j f hf hjk => ?_⟩
  obtain ⟨j, rfl⟩ := hf.exists_fin (length_reordered hn)
  have hf := (offers_reordered_iff hn hls j).mp hf
  obtain ⟨b, hb⟩ := exists_does_of_offers hcs hf
  have hne : (σ j).val ≠ (σ k).val := fun heq => hjk (congrArg Fin.val (σ.injective (Fin.ext heq)))
  exact defined_handshakeTrial ha hb (hpartners hg _ f hf hne) k j

/-- The components that have initializations. -/
def initialized (cs : ChannelSystem String) : List (ProgramGraph String) :=
  cs.components.filter fun pg => !pg.initializations.isEmpty

theorem initializations_eq : cs.initializations =
    (FinSet.choices (cs.initialized.map ProgramGraph.initializations)).toList.map List.flatten := by
  rw [initializations, List.filter_map]
  rfl

/-- One initialized component at most leaves no order in which initializations could be run. -/
theorem initializations_reordered (h : cs.initialized.length ≤ 1) :
    (cs.reordered σ).initializations = cs.initializations := by
  have hperm : (cs.reordered σ).initialized.Perm cs.initialized := (rearrange_perm σ).filter _
  have heq : (cs.reordered σ).initialized = cs.initialized := by
    generalize cs.initialized = l at h hperm ⊢
    match l, h with
    | [], _ => exact hperm.eq_nil
    | [pg], _ => exact List.perm_singleton.mp hperm
  rw [initializations_eq, initializations_eq, heq]

theorem Moves.length_eq {x y : List String × Memory} {a : String} (h : cs.Moves x a y) :
    y.1.length = x.1.length := by
  cases h with
  | alone => exact List.length_set
  | joint => rw [List.length_set, List.length_set]

section Correspondence

open StateSpace

variable (hcs : ∀ pg ∈ cs.components, pg.IsProcess)
include hcs

theorem length_of_reached {memories : FinSet Memory} {x : List String × Memory}
    (h : Reached (cs.movesFrom Evaluators.standard)
      ((FinSet.choices (cs.components.map ProgramGraph.initial)).product memories).toList x) :
    x.1.length = cs.components.length := by
  obtain ⟨s, hs, k, hwalk⟩ := h
  rw [FinSet.mem_toList, FinSet.mem_product, FinSet.mem_choices] at hs
  refine hwalk.invariant (p := fun x => x.1.length = cs.components.length) ?_ ?_
  · simpa using hs.1.length_eq.symm
  · rintro y z hy ⟨steps, a, hsteps, hz⟩
    have hmove := ((collects_movesFrom_standard hcs y).mem_iff steps hsteps (a, z)).mp hz
    exact hmove.length_eq.trans hy

theorem isProcess_reordered : ∀ pg ∈ (cs.reordered σ).components, pg.IsProcess :=
  fun pg hpg => hcs pg ((rearrange_perm σ).mem_iff.mp hpg)

theorem relabelling_reordered (hn : cs.components.length = n) (memories : FinSet Memory) :
    Relabelling SameAction (fun x => (rearrange σ x.1, x.2)) (cs.movesFrom Evaluators.standard)
      ((FinSet.choices (cs.components.map ProgramGraph.initial)).product memories).toList
      ((cs.reordered σ).movesFrom Evaluators.standard)
      ((FinSet.choices ((cs.reordered σ).components.map ProgramGraph.initial)).product
        memories).toList where
  mem_initial y := by
    simp only [FinSet.mem_toList, FinSet.mem_product, FinSet.mem_choices, List.forall₂_map_left_iff]
    constructor
    · rintro ⟨hlocations, hmemory⟩
      have hlocations := forall₂_rearrange σ.symm hlocations
      rw [reordered, rearrange_symm_rearrange] at hlocations
      exact ⟨(rearrange σ.symm y.1, y.2), ⟨hlocations, hmemory⟩, by simp⟩
    · rintro ⟨x, ⟨hlocations, hmemory⟩, rfl⟩
      exact ⟨forall₂_rearrange σ hlocations, hmemory⟩
  related x hx := by
    have hls : x.1.length = n := (length_of_reached hcs hx).trans hn
    have hls' : (rearrange σ x.1).length = n := by rwa [length_rearrange]
    refine related_of_collects (collects_movesFrom_standard hcs x)
      (collects_movesFrom_standard (isProcess_reordered hcs) _) ⟨?_, fun h => ?_⟩
      (fun a y hy => hy.reordered hn hls) fun b y hy => hy.of_reordered hn hls
    · exact definedWith_reordered hcs hn hls
    · have h := definedWith_reordered (σ := σ.symm) (isProcess_reordered hcs) (length_reordered hn)
        hls' h
      simpa using h
  injective x y _ _ heq := by
    obtain ⟨hlocations, hmemory⟩ := Prod.mk.inj heq
    exact Prod.ext (rearrange_injective σ hlocations) hmemory

end Correspondence

/-- Putting the components in another order changes neither whether a channel system can be unfolded
nor, but for the order of locations and of the halves of a rendezvous, what this gives. -/
theorem unfold_reordered (hcs : ∀ pg ∈ cs.components, pg.IsProcess)
    (hinit : cs.initialized.length ≤ 1) (σ : Equiv.Perm (Fin cs.components.length))
    (bounds : Bounds) :
    ((∃ ts, cs.unfold Evaluators.standard bounds = .ok ts) ↔
      ∃ us, (cs.reordered σ).unfold Evaluators.standard bounds = .ok us) ∧
    ∀ ts us, cs.unfold Evaluators.standard bounds = .ok ts →
      (cs.reordered σ).unfold Evaluators.standard bounds = .ok us →
        TransitionSystem.IsIsomorphismUpTo SameAction (fun x => (rearrange σ x.1, x.2)) ts us := by
  have hinitializations := initializations_reordered (σ := σ) hinit
  have hrelabelling := relabelling_reordered (σ := σ) hcs rfl
  constructor
  · simp only [unfold_eq_ok_iff, hinitializations]
    constructor
    · rintro ⟨_, memories, space, hmemories, hexplore, _⟩
      obtain ⟨space', hexplore'⟩ :=
        (hrelabelling memories).sameShape.exists_explore_iff.mp ⟨space, hexplore⟩
      exact ⟨_, memories, space', hmemories, hexplore', rfl⟩
    · rintro ⟨_, memories, space', hmemories, hexplore', _⟩
      obtain ⟨space, hexplore⟩ :=
        (hrelabelling memories).sameShape.exists_explore_iff.mpr ⟨space', hexplore'⟩
      exact ⟨_, memories, space, hmemories, hexplore, rfl⟩
  · intro ts us hts hus
    obtain ⟨memories, space, hmemories, hexplore, rfl⟩ := unfold_eq_ok_iff.mp hts
    obtain ⟨memories', space', hmemories', hexplore', rfl⟩ := unfold_eq_ok_iff.mp hus
    rw [hinitializations, hmemories] at hmemories'
    cases hmemories'
    have hspace := StateSpace.isReachable_of_explore hexplore
    have hspace' := StateSpace.isReachable_of_explore hexplore'
    refine (hrelabelling memories).isIsomorphismUpTo hspace hspace' fun x hx => ?_
    have hx' : (rearrange σ x.1, x.2) ∈ space'.states := by
      rw [(hrelabelling memories).sameShape.states_eq hspace hspace']
      exact FinSet.mem_image.mpr ⟨x, hx, rfl⟩
    rw [StateSpace.labelOf_toSystem hx', StateSpace.labelOf_toSystem hx]
    refine FinSet.ext fun p => ?_
    rw [FinSet.mem_ofList, FinSet.mem_ofList]
    exact (((rearrange_perm σ).map locationText).append_right _).mem_iff

/-- The sender of `relay` in front of the receiver. -/
def relayOrder : Equiv.Perm (Fin 3) := Equiv.swap 0 1

theorem relay_unfold_reordered : ∃ ts us, relay.unfold Evaluators.standard {} = .ok ts ∧
    ts.states.size = 4 ∧ (relay.reordered relayOrder).unfold Evaluators.standard {} = .ok us ∧
    TransitionSystem.IsIsomorphismUpTo SameAction (fun x => (rearrange relayOrder x.1, x.2))
      ts us := by
  have hrun : ∃ ts, relay.unfold [relayEvaluator] {} = .ok ts ∧ ts.states.size = 4 := ⟨_, rfl, rfl⟩
  obtain ⟨ts, hts, hsize⟩ := hrun
  have hts := (unfold_congr relay_agreeOn).mpr hts
  obtain ⟨hiff, hisomorphism⟩ := unfold_reordered relay_isProcess (by decide) relayOrder {}
  obtain ⟨us, hus⟩ := hiff.mp ⟨ts, hts⟩
  exact ⟨ts, us, hts, hsize, hus, hisomorphism ts us hts hus⟩

end ChannelSystem

end OmegaCheck
