import OmegaCheck.Proofs.ChannelSystem.Steps
import OmegaCheck.Proofs.ProgramGraph.Processes

/-!
# The meaning of channel systems of programs

When the components are the program graphs of programs, the texts on their edges can be told by the
actions that they spell: a component moves alone by an action that is no half of a rendezvous, where
a receive waits for a message, and a receive and a send on one rendezvous channel hand over a value
without a queue.
-/

namespace OmegaCheck

namespace ChannelSystem

/-- The components are at initial locations, in the memory of one initialization of each. -/
structure Starts (cs : ChannelSystem String) (x : List String × Memory) : Prop where
  located : List.Forall₂ (fun pg l => l ∈ pg.initial) cs.components x.1
  initialized : ∃ init, JointInitialization cs.components init ∧
    Evaluators.standard.initialMemory init = .ok x.2

/-- One move: of a component alone, or of two components over a rendezvous channel. -/
inductive Moves (cs : ChannelSystem String) :
    List String × Memory → String → List String × Memory → Prop
  | alone {ls : List String} {m n : Memory} {i : Nat} {e : Edge String} {a : Option Action}
      (he : cs.Offers ls i e) (ha : e.Does a) (hmark : e.action.toList.head? ≠ some '_')
      (hguard : Evaluators.standard.guard m e.guard = .ok true)
      (hqueue : ∀ c x, a = some (.receive c x) → ∃ v vs, m.get? c = some (.queue (v :: vs)))
      (hrun : Stmt.runAction m a = .ok n) : Moves cs (ls, m) e.action (ls.set i e.target, n)
  | joint {ls : List String} {m : Memory} {i j : Nat} {e f : Edge String} {c x : String}
      {value : Expr} {v : Int64} (he : cs.Offers ls i e) (hf : cs.Offers ls j f) (hij : i ≠ j)
      (hreceive : e.Does (some (.receive c x))) (hsend : f.Does (some (.send c value)))
      (hc : c.toList.head? = some '_') (hguard : Evaluators.standard.guard m e.guard = .ok true)
      (hguard' : Evaluators.standard.guard m f.guard = .ok true) (hvalue : value.eval m = .ok v) :
      Moves cs (ls, m)
        (if i < j then e.action ++ "|" ++ f.action else f.action ++ "|" ++ e.action)
        ((ls.set i e.target).set j f.target, m.set x (.int v))

/-- What is read back after a move: what the action of one component makes of the memory, or the
value that was sent under the target of a receive and everything else as before. -/
theorem Moves.get?_eq {cs : ChannelSystem String} {x y : List String × Memory} {label : String}
    (h : cs.Moves x label y) :
    (∃ i e a, cs.Offers x.1 i e ∧ e.Does a ∧ Stmt.runAction x.2 a = .ok y.2 ∧
      ∀ z, (∀ b, a = some b → z ∉ b.written) → y.2.get? z = x.2.get? z) ∨
    ∃ i j e f c target value v, cs.Offers x.1 i e ∧ cs.Offers x.1 j f ∧
      e.Does (some (.receive c target)) ∧ f.Does (some (.send c value)) ∧
      value.eval x.2 = .ok v ∧
      ∀ z, y.2.get? z = if z = target then some (.int v) else x.2.get? z := by
  cases h with
  | @alone ls m n i e a he ha _ _ _ hrun =>
    refine .inl ⟨i, e, a, he, ha, hrun, fun z hz => ?_⟩
    cases a with
    | none =>
      cases hrun
      rfl
    | some b => exact Action.get?_of_run (hz b rfl) hrun
  | joint he hf _ hreceive hsend _ _ _ hvalue =>
    exact .inr ⟨_, _, _, _, _, _, _, _, he, hf, hreceive, hsend, hvalue, Memory.set_eq_iff.mp rfl⟩

/-- The system has the reachable states of the channel system and their moves, and half of a
rendezvous is never a move. -/
structure IsMeaning (cs : ChannelSystem String)
    (ts : TransitionSystem (List String × Memory) String String) : Prop where
  initial : ∀ x, x ∈ ts.initial ↔ cs.Starts x
  states : ∀ x, x ∈ ts.states ↔
    ∃ s, cs.Starts s ∧ ∃ n, Walk (fun y z => ∃ a, cs.Moves y a z) s n x
  transitions : ∀ x a y, ⟨x, a, y⟩ ∈ ts.transitions ↔ x ∈ ts.states ∧ cs.Moves x a y
  noHalf : ∀ x y (b : Action), b.accepted = true → ⟨x, b.text, y⟩ ∈ ts.transitions →
    b.text.toList.head? ≠ some '_'

variable {cs : ChannelSystem String} {ls : List String} {m n : Memory} {i j : Nat}
  {e f : Edge String}

theorem isFeasible_iff {a : Option Action} (ha : e.Does a)
    (hmark : Channel.isRendezvous e.action = false) :
    Channel.isFeasible m e.action = true ↔
      ∀ c x, a = some (.receive c x) → ∃ v vs, m.get? c = some (.queue (v :: vs)) := by
  rw [ha.text] at hmark ⊢
  cases a with
  | none =>
    refine ⟨fun _ c x h => ?_, fun _ => rfl⟩
    cases h
  | some b =>
    have hnamed := (Action.accepted_iff.mp (ha.accepted b rfl)).1
    rw [Stmt.actionText, Action.isFeasible_text_iff hnamed hmark]
    simp

theorem isRendezvous_eq_false_iff {text : String} :
    Channel.isRendezvous text = false ↔ text.toList.head? ≠ some '_' :=
  decide_eq_false_iff_not

/-- The two edges of a handshake carry a receive and a send on one rendezvous channel. -/
theorem exists_of_isHandshake {a b : Option Action} (ha : e.Does a) (hb : f.Does b)
    (h : Channel.isHandshake e.action f.action = true) : ∃ c x value,
      e.Does (some (.receive c x)) ∧ f.Does (some (.send c value)) ∧ c.toList.head? = some '_' := by
  have htexts := h
  rw [ha.text, hb.text] at htexts
  cases a with
  | none => simp [Channel.isHandshake, Channel.isRendezvous, Stmt.actionText] at htexts
  | some a =>
    cases b with
    | none => simp [Channel.isHandshake, Channel.isRendezvous, Stmt.actionText] at htexts
    | some b =>
      have hnamed := (Action.accepted_iff.mp (ha.accepted a rfl)).1
      have hnamed' := (Action.accepted_iff.mp (hb.accepted b rfl)).1
      obtain ⟨c, x, value, rfl, rfl, hc⟩ := (Action.isHandshake_text_iff hnamed hnamed').mp htexts
      exact ⟨c, x, value, ha, hb, of_decide_eq_true hc⟩

theorem handshakeLabel_effect_eq_ok_iff {c x : String} {value : Expr}
    (hreceive : e.Does (some (.receive c x))) (hsend : f.Does (some (.send c value))) :
    Evaluators.standard.effect m (Channel.handshakeLabel i e.action j f.action) = .ok n ↔
      ∃ v, value.eval m = .ok v ∧ m.set x (.int v) = n := by
  have hagree := Action.agree_effect_handshakeLabel (hreceive.accepted _ rfl)
    (hsend.accepted _ rfl) i j m
  rw [hreceive.text, hsend.text]
  refine hagree.eq_ok_iff.trans (bind_eq_ok_iff.trans ?_)
  exact exists_congr fun v => and_congr_right fun _ => iff_of_eq (Except.ok.injEq _ _)

theorem exists_does_of_offers (hcs : ∀ pg ∈ cs.components, pg.IsProcess) (he : cs.Offers ls i e) :
    ∃ a, e.Does a := by
  obtain ⟨pg, hpg, he, _⟩ := he
  exact (hcs pg (List.mem_of_getElem? hpg)).exists_does he

theorem Moves.of_stepWith (hcs : ∀ pg ∈ cs.components, pg.IsProcess) (he : cs.Offers ls i e)
    {y : String × (List String × Memory)} (h : cs.StepWith Evaluators.standard ls m i e y) :
    cs.Moves (ls, m) y.1 y.2 := by
  obtain ⟨a, ha⟩ := exists_does_of_offers hcs he
  cases h with
  | alone hmark hgives =>
    obtain ⟨hfeasible, hguard, heffect⟩ := hgives
    exact .alone he ha (isRendezvous_eq_false_iff.mp hmark) hguard
      ((isFeasible_iff ha hmark).mp hfeasible) (ha.effect_eq_ok_iff.mp heffect)
  | joint hf hij hguard hgives =>
    obtain ⟨hhandshake, hguard', heffect⟩ := hgives
    obtain ⟨b, hb⟩ := exists_does_of_offers hcs hf
    obtain ⟨c, x, value, hreceive, hsend, hc⟩ := exists_of_isHandshake ha hb hhandshake
    obtain ⟨v, hvalue, rfl⟩ := (handshakeLabel_effect_eq_ok_iff hreceive hsend).mp heffect
    exact .joint he hf hij.symm hreceive hsend hc hguard hguard' hvalue

theorem Moves.exists_stepWith {x y : List String × Memory} {a : String} (h : cs.Moves x a y) :
    ∃ i e, cs.Offers x.1 i e ∧ cs.StepWith Evaluators.standard x.1 x.2 i e (a, y) := by
  cases h with
  | alone he ha hmark hguard hqueue hrun =>
    have hmark := isRendezvous_eq_false_iff.mpr hmark
    exact ⟨_, _, he, .alone hmark
      ⟨(isFeasible_iff ha hmark).mpr hqueue, hguard, ha.effect_eq_ok_iff.mpr hrun⟩⟩
  | joint he hf hij hreceive hsend hc hguard hguard' hvalue =>
    have hhandshake := (Action.isHandshake_text_iff
      (Action.accepted_iff.mp (hreceive.accepted _ rfl)).1
      (Action.accepted_iff.mp (hsend.accepted _ rfl)).1).mpr ⟨_, _, _, rfl, rfl, decide_eq_true hc⟩
    refine ⟨_, _, he, .joint hf hij.symm hguard ⟨?_, hguard', ?_⟩⟩
    · change Channel.isHandshake (Edge.action _) (Edge.action _) = true
      rw [hreceive.text, hsend.text]
      exact hhandshake
    · exact (handshakeLabel_effect_eq_ok_iff hreceive hsend).mpr ⟨_, hvalue, rfl⟩

theorem collects_movesFrom_standard (hcs : ∀ pg ∈ cs.components, pg.IsProcess)
    (x : List String × Memory) :
    Collects (cs.movesFrom Evaluators.standard x)
      (∀ i e, cs.Offers x.1 i e → cs.DefinedWith Evaluators.standard x.1 x.2 i e)
      fun y => cs.Moves x y.1 y.2 := by
  refine (collects_movesFrom x).congr Iff.rfl fun _ y => ?_
  constructor
  · rintro ⟨i, e, he, hstep⟩
    exact .of_stepWith hcs he hstep
  · exact Moves.exists_stepWith

/-- The label of a joint move is no text of an action. -/
theorem Moves.not_isRendezvous {x y : List String × Memory} {b : Action} (hb : b.accepted = true)
    (h : cs.Moves x b.text y) : b.text.toList.head? ≠ some '_' := by
  generalize htext : b.text = label at h
  cases h with
  | alone _ _ hmark => exact hmark
  | joint _ _ _ hreceive hsend =>
    obtain ⟨hnamed, hfilled⟩ := Action.accepted_iff.mp hb
    have hparse := Action.parse_text hnamed hfilled
    rw [htext, hreceive.text, hsend.text] at hparse
    split at hparse
    · exact absurd hparse (Action.parse_pairText_ne_ok (hreceive.accepted _ rfl)
        (hsend.accepted _ rfl) _)
    · exact absurd hparse (Action.parse_pairText_ne_ok (hsend.accepted _ rfl)
        (hreceive.accepted _ rfl) _)

theorem mem_starts_iff {memories : FinSet Memory}
    (h : initialMemories Evaluators.standard cs.initializations = .ok memories)
    {x : List String × Memory} :
    x ∈ ((FinSet.choices (cs.components.map ProgramGraph.initial)).product memories).toList ↔
      cs.Starts x := by
  have hmemory : x.2 ∈ memories ↔ ∃ init, JointInitialization cs.components init ∧
      Evaluators.standard.initialMemory init = .ok x.2 := by
    rw [(initialMemories_eq_ok_iff.mp h).2]
    simp only [mem_orEmpty_initializations]
  rw [FinSet.mem_toList, FinSet.mem_product, FinSet.mem_choices, List.forall₂_map_left_iff, hmemory]
  exact ⟨fun h => ⟨h.1, h.2⟩, fun h => ⟨h.1, h.2⟩⟩

/-- What the unfolding of a channel system of programs returns is its meaning. -/
theorem unfold_isMeaning (hcs : ∀ pg ∈ cs.components, pg.IsProcess) {bounds : Bounds}
    {ts : TransitionSystem (List String × Memory) String String}
    (h : cs.unfold Evaluators.standard bounds = .ok ts) : cs.IsMeaning ts := by
  obtain ⟨memories, space, hmemories, hexplore, rfl⟩ := unfold_eq_ok_iff.mp h
  have hspace := StateSpace.isReachable_of_explore hexplore
  have hmoves := collects_movesFrom_standard hcs
  have htransitions : ∀ x a y, ⟨x, a, y⟩ ∈ space.transitions ↔ x ∈ space.states ∧ cs.Moves x a y :=
    fun x a y => hspace.mem_transitions_iff hmoves
  constructor
  case initial => exact fun x => (hspace.mem_initial x).trans (mem_starts_iff hmemories)
  case states =>
    intro x
    refine (hspace.mem_states_iff hmoves).trans (exists_congr fun s => ?_)
    rw [mem_starts_iff hmemories]
  case transitions => exact htransitions
  case noHalf =>
    intro x y b hb ht
    exact ((htransitions _ _ _).mp ht).2.not_isRendezvous hb

/-- A value goes by rendezvous to a component that passes it on through a queue. -/
def relay : ChannelSystem String where
  components :=
    [ (Stmt.seq (.basic (.receive "_c" "y")) (.basic (.send "q" (.var "y")))).graph,
      { (Stmt.basic (.send "_c" (.binary .add (.var "x") (.int 1)))).graph with
        initializations := FinSet.ofList [["x := 2"]] },
      (Stmt.basic (.receive "q" "z")).graph ]

/-- The meaning of the texts of `relay`, without reading them. -/
def relayEvaluator : Evaluator where
  guard? _ _ := some (.ok true)
  effect? m text := some <|
    if text = "x := 2" then Action.run m (.assign "x" (.int 2))
    else if text = "q!y" then Action.run m (.send "q" (.var "y"))
    else if text = "q?z" then Action.run m (.receive "q" "z")
    else Action.run m (.assign "y" (.binary .add (.var "x") (.int 1)))

theorem relay_agreeOn : relay.AgreeOn Evaluators.standard [relayEvaluator] := by
  have hedges : relay.edges =
      [⟨"_c?y; q!y", "true", "_c?y", "q!y"⟩, ⟨"q!y", "true", "q!y", ""⟩,
        ⟨"_c!x + 1", "true", "_c!x + 1", ""⟩, ⟨"q?z", "true", "q?z", ""⟩] := rfl
  constructor
  case initialMemory =>
    intro init hinit m
    obtain rfl : init = ["x := 2"] := List.mem_singleton.mp hinit
    exact (Action.agree_initialMemory_texts [.assign "x" (.int 2)] (by decide)).eq_ok_iff
  case guard =>
    have htrue : ∀ e ∈ relay.edges, e.guard = "true" := by simp [hedges]
    intro e he m b
    rw [htrue e he]
    exact (Condition.agree_guard_text (c := .always) rfl m).eq_ok_iff
  case effect =>
    intro e he hmark m n
    simp only [hedges, List.mem_cons, List.not_mem_nil, or_false] at he
    obtain rfl | rfl | rfl | rfl := he
    · exact absurd hmark (by decide)
    · exact (Action.agree_effect_text (a := .send "q" (.var "y")) (by decide) rfl m).eq_ok_iff
    · exact absurd hmark (by decide)
    · exact (Action.agree_effect_text (a := .receive "q" "z") (by decide) rfl m).eq_ok_iff
  case joint =>
    have hpair : ∀ e ∈ relay.edges, ∀ f ∈ relay.edges,
        Channel.isHandshake e.actionText f.actionText = true →
          e.actionText = "_c?y" ∧ f.actionText = "_c!x + 1" := by
      rw [hedges]
      decide
    intro e he f hf hhandshake i j m n
    obtain ⟨hreceive, hsend⟩ := hpair e he f hf hhandshake
    rw [hreceive, hsend]
    have hagree := Action.agree_effect_handshakeLabel (c := "_c") (x := "y")
      (e := .binary .add (.var "x") (.int 1)) (by decide) (by decide) i j m
    refine hagree.eq_ok_iff.trans ?_
    rw [Channel.handshakeLabel]
    split <;> rfl

theorem relay_isProcess : ∀ pg ∈ relay.components, pg.IsProcess := by
  intro pg hpg
  simp only [relay, List.mem_cons, List.not_mem_nil, or_false] at hpg
  obtain rfl | rfl | rfl := hpg
  · exact ProgramGraph.isProcess_graph (by decide) rfl
  · exact (ProgramGraph.isProcess_graph (by decide) rfl).initializedBy _
  · exact ProgramGraph.isProcess_graph (by decide) rfl

theorem relay_unfold_isMeaning : ∃ ts, relay.unfold Evaluators.standard {} = .ok ts ∧
    ts.states.size = 4 ∧ relay.IsMeaning ts := by
  have hrun : ∃ ts, relay.unfold [relayEvaluator] {} = .ok ts ∧ ts.states.size = 4 := ⟨_, rfl, rfl⟩
  obtain ⟨ts, hts, hsize⟩ := hrun
  have hunfold := (unfold_congr relay_agreeOn).mpr hts
  exact ⟨ts, hunfold, hsize, unfold_isMeaning relay_isProcess hunfold⟩

end ChannelSystem

end OmegaCheck
