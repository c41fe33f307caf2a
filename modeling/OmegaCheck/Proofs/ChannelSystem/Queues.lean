import OmegaCheck.Proofs.ChannelSystem.Meaning
import OmegaCheck.Proofs.Fragment
import OmegaCheck.Proofs.Program.Derivation
import OmegaCheck.Proofs.ProgramGraph.NormalForm

/-!
# Channels are queues

Nothing else than sends and receives touches a channel that no program assigns to. Along every path
of a channel system of programs, what is in the channel at first, followed by what is sent on the
way, is what is received on the way, followed by what is left in the channel: nothing is lost,
doubled or overtaken, whichever components take part and however their steps are mixed.
-/

namespace OmegaCheck

namespace Memory

variable {m n k : Memory} {c : String}

theorem readQueue_congr (h : n.get? c = m.get? c) : n.readQueue c = m.readQueue c := by
  rw [readQueue, h, readQueue]

/-- Between the two memories the messages of the channel change by what is sent and received, first
in, first out. The values sent are computed, and the cells received into hold integers. -/
def Queues (c : String) (m : Memory) (sends : List (Except EvalError Int64))
    (receives : List (Option Cell)) (n : Memory) : Prop :=
  ∃ before sent received after, m.readQueue c = .ok before ∧ sends = sent.map .ok ∧
    receives = received.map (fun v => some (.int v)) ∧ n.readQueue c = .ok after ∧
    before ++ sent = received ++ after

theorem Queues.unchanged {messages : List Int64} (h : m.readQueue c = .ok messages)
    (hn : n.readQueue c = m.readQueue c) : Queues c m [] [] n :=
  ⟨messages, [], [], messages, h, rfl, rfl, hn.trans h, List.append_nil _⟩

theorem Queues.append {sends sends' : List (Except EvalError Int64)}
    {receives receives' : List (Option Cell)} (h : Queues c m sends receives n)
    (h' : Queues c n sends' receives' k) :
    Queues c m (sends ++ sends') (receives ++ receives') k := by
  obtain ⟨before, sent, received, between, hbefore, rfl, rfl, hbetween, heq⟩ := h
  obtain ⟨_, sent', received', after, hbetween', rfl, rfl, hafter, heq'⟩ := h'
  cases hbetween.symm.trans hbetween'
  refine ⟨before, sent ++ sent', received ++ received', after, hbefore, ?_, ?_, hafter, ?_⟩
  · rw [List.map_append]
  · rw [List.map_append]
  · calc before ++ (sent ++ sent') = (before ++ sent) ++ sent' := (List.append_assoc ..).symm
      _ = received ++ (between ++ sent') := by rw [heq, List.append_assoc]
      _ = received ++ received' ++ after := by rw [heq', List.append_assoc]

theorem Queues.exists_messages {sends : List (Except EvalError Int64)}
    {receives : List (Option Cell)} (h : Queues c m sends receives n) :
    ∃ messages, n.readQueue c = .ok messages := by
  obtain ⟨_, _, _, after, _, _, _, hafter, _⟩ := h
  exact ⟨after, hafter⟩

end Memory

namespace Action

variable {c : String} {m n : Memory} {messages : List Int64}

/-- The names that an action binds to integers. -/
def targets : Action → List String
  | assign name _ => [name]
  | atomic assignments => assignments.map Prod.fst
  | receive _ target => [target]
  | skip | send _ _ => []

/-- The value that an action sends to the channel, computed in the memory before. -/
def sentOn (c : String) (m : Memory) : Action → List (Except EvalError Int64)
  | send channel value => if channel = c then [value.eval m] else []
  | _ => []

/-- The cell that an action receives into from the channel, in the memory after. -/
def receivedOn (c : String) (n : Memory) : Action → List (Option Cell)
  | receive channel target => if channel = c then [n.get? target] else []
  | _ => []

theorem targets_norm (a : Action) : a.norm.targets = a.targets := by
  cases a with
  | atomic as => simp [norm, mapExprs, targets, Function.comp_def]
  | _ => rfl

theorem queues_receive {channel target : String} (hc : c ≠ target)
    (hm : m.readQueue c = .ok messages) (h : (receive channel target).run m = .ok n) :
    Memory.Queues c m [] ((receive channel target).receivedOn c n) n := by
  obtain ⟨_, v, rest, hfound, hn⟩ := run_receive_eq_ok_iff.mp h
  by_cases hchannel : channel = c
  · subst hchannel
    refine ⟨v :: rest, [], [v], rest, ?_, rfl, ?_, ?_, List.append_nil _⟩
    · rw [Memory.readQueue, hfound]
    · rw [receivedOn, if_pos rfl, hn, if_pos rfl]
      rfl
    · rw [Memory.readQueue, hn, if_neg hc, if_pos rfl]
  · rw [receivedOn, if_neg hchannel]
    refine .unchanged hm (Memory.readQueue_congr ?_)
    rw [hn, if_neg hc, if_neg (Ne.symm hchannel)]

theorem queues_send {channel : String} {value : Expr} (hm : m.readQueue c = .ok messages)
    (h : (send channel value).run m = .ok n) :
    Memory.Queues c m ((send channel value).sentOn c m) [] n := by
  obtain ⟨_, found, v, hfound, hv, hn⟩ := run_send_eq_ok_iff.mp h
  by_cases hchannel : channel = c
  · subst hchannel
    refine ⟨found, [v], [], found ++ [v], hfound, ?_, rfl, ?_, rfl⟩
    · rw [sentOn, if_pos rfl, hv]
      rfl
    · rw [Memory.readQueue, hn, if_pos rfl]
  · rw [sentOn, if_neg hchannel]
    refine .unchanged hm (Memory.readQueue_congr ?_)
    rw [hn, if_neg (Ne.symm hchannel)]

theorem parse_empty_ne_ok (a : Action) : Action.parse "" ≠ .ok a := by
  intro h
  obtain ⟨lexemes, hlex, _, hread⟩ := Parser.whole_eq_ok_iff.mp h
  have hempty : Lexeme.Lexes "".toList [] := Lexeme.lexes_nil
  obtain ⟨_, hlex', htokens⟩ := hempty.lex
  cases hlex.symm.trans hlex'
  obtain rfl := List.map_eq_nil_iff.mp htokens
  cases hread

/-- One action: only a send or a receive on the channel changes its messages. -/
theorem queues_run {a : Action} (hc : c ∉ a.targets) (hm : m.readQueue c = .ok messages)
    (h : a.run m = .ok n) : Memory.Queues c m (a.sentOn c m) (a.receivedOn c n) n := by
  cases a with
  | skip =>
    cases h
    exact .unchanged hm rfl
  | assign name value | atomic as =>
    refine .unchanged hm (Memory.readQueue_congr (get?_of_run ?_ h))
    exact hc
  | receive channel target => exact queues_receive (List.ne_of_not_mem_cons hc) hm h
  | send channel value => exact queues_send hm h

end Action

namespace Transition

variable {L : Type} {c label : String} {x y : L × Memory}

/-- The value that a step sends to the channel, if its label is a send. -/
def sentOn (c : String) (t : Transition (L × Memory) String) : List (Except EvalError Int64) :=
  match Action.parse t.action with
  | .ok a => a.sentOn c t.source.2
  | .error _ => []

/-- The cell that a step receives into from the channel, if its label is a receive. -/
def receivedOn (c : String) (t : Transition (L × Memory) String) : List (Option Cell) :=
  match Action.parse t.action with
  | .ok a => a.receivedOn c t.target.2
  | .error _ => []

/-- A step whose label is no single action communicates without a queue. -/
theorem queues_of_unread {messages : List Int64} (h : ∀ a, Action.parse label ≠ .ok a)
    (hx : x.2.readQueue c = .ok messages) (hy : y.2.readQueue c = x.2.readQueue c) :
    Memory.Queues c x.2 (sentOn c ⟨x, label, y⟩) (receivedOn c ⟨x, label, y⟩) y.2 := by
  cases hparse : Action.parse label with
  | error e =>
    rw [sentOn, receivedOn, hparse]
    exact .unchanged hx hy
  | ok a => exact absurd hparse (h a)

end Transition

theorem Edge.Does.parse_action {L : Type} {e : Edge L} {a : Action} (h : e.Does (some a)) :
    Action.parse e.action = .ok a.norm := by
  obtain ⟨hnamed, hfilled⟩ := Action.accepted_iff.mp (h.accepted a rfl)
  rw [h.text]
  exact Action.parse_text hnamed hfilled

namespace ProgramGraph

variable {c : String} {pg : ProgramGraph String} {e : Edge String} {a : Action}

/-- The graph of a program that neither assigns to `c` nor receives into it. -/
def Spares (c : String) (pg : ProgramGraph String) : Prop :=
  ∃ source s, Stmt.parse source = .ok s ∧ s.compile = .ok pg ∧
    s.all (fun a => decide (c ∉ a.targets)) (fun _ => true) = true

theorem spares_graph {s : Stmt} (hs : s.accepted = true) (hnorm : s.norm = s)
    (hspares : s.all (fun a => decide (c ∉ a.targets)) (fun _ => true) = true) :
    s.graph.Spares c :=
  ⟨s.text, s, (Stmt.parse_text hs).trans (congrArg Except.ok hnorm), s.compile_eq_graph, hspares⟩

theorem Spares.isProcess (h : pg.Spares c) : pg.IsProcess := by
  obtain ⟨source, s, hparse, hcompile, _⟩ := h
  exact ⟨source, pg, bind_eq_ok_iff.mpr ⟨s, mapError_eq_ok_iff.mpr hparse,
    mapError_eq_ok_iff.mpr hcompile⟩, rfl⟩

theorem Spares.initializations_eq (h : pg.Spares c) : pg.initializations = ∅ := by
  obtain ⟨_, s, _, hcompile, _⟩ := h
  rw [Stmt.compile_eq_ok] at hcompile
  cases hcompile
  rfl

/-- Actions with the text of the edge have the same targets, whichever of them was compiled. -/
theorem Spares.not_mem_targets (h : pg.Spares c) (he : e ∈ pg.edges) (ha : e.Does (some a)) :
    c ∉ a.targets := by
  obtain ⟨_, s, hparse, hcompile, hspares⟩ := h
  have hs := Stmt.accepted_of_parse hparse
  obtain ⟨r, condition, b, r', hr, hstep, rfl⟩ := (Stmt.mem_edges_iff hs hcompile).mp he
  have hread := ha.parse_action
  cases b with
  | none => exact absurd hread (Action.parse_empty_ne_ok _)
  | some b =>
    have hb : (Stmt.edge r condition (some b) r').Does (some b) :=
      ⟨rfl, hstep.all_action (hr.all hs)⟩
    have hnorm : a.norm = b.norm := Except.ok.inj (hread.symm.trans hb.parse_action)
    rw [← a.targets_norm, hnorm, b.targets_norm]
    exact of_decide_eq_true (hstep.all_action (hr.all hspares) b rfl)

end ProgramGraph

namespace ChannelSystem

variable {c : String} {cs : ChannelSystem String} {x y : List String × Memory} {label : String}

/-- One step of the system. -/
theorem Moves.queues (hcs : ∀ pg ∈ cs.components, pg.Spares c) (h : cs.Moves x label y)
    {messages : List Int64} (hx : x.2.readQueue c = .ok messages) :
    Memory.Queues c x.2 (Transition.sentOn c ⟨x, label, y⟩) (Transition.receivedOn c ⟨x, label, y⟩)
      y.2 := by
  have htargets : ∀ {ls i} {e : Edge String} {a}, cs.Offers ls i e → e.Does (some a) →
      c ∉ a.targets := by
    rintro ls i e a ⟨pg, hpg, he, _⟩ ha
    exact (hcs pg (List.mem_of_getElem? hpg)).not_mem_targets he ha
  cases h with
  | @alone ls m n i e a he ha _ _ _ hrun =>
    cases a with
    | none =>
      cases hrun
      refine Transition.queues_of_unread (fun a => ?_) hx rfl
      rw [ha.text]
      exact Action.parse_empty_ne_ok a
    | some a =>
      have hnorm : a.norm.run m = .ok n := (a.agree_run_norm m).eq_ok_iff.mpr hrun
      have hfree : c ∉ a.norm.targets := by
        rw [a.targets_norm]
        exact htargets he ha
      rw [Transition.sentOn, Transition.receivedOn, ha.parse_action]
      exact Action.queues_run hfree hx hnorm
  | @joint ls m i j e f d target value v he hf hij hreceive hsend _ _ _ _ =>
    have hne : c ≠ target := List.ne_of_not_mem_cons (htargets he hreceive)
    have hsame : (m.set target (.int v)).get? c = m.get? c := by rw [Memory.get?_set, if_neg hne]
    refine Transition.queues_of_unread (fun a => ?_) hx (Memory.readQueue_congr hsame)
    rw [hreceive.text, hsend.text]
    split
    · exact Action.parse_pairText_ne_ok (hreceive.accepted _ rfl) (hsend.accepted _ rfl) a
    · exact Action.parse_pairText_ne_ok (hsend.accepted _ rfl) (hreceive.accepted _ rfl) a

theorem JointInitialization.eq_nil {pgs : List (ProgramGraph String)}
    (h : ∀ pg ∈ pgs, pg.initializations = ∅) {init : List String}
    (hinit : JointInitialization pgs init) : init = [] := by
  induction pgs generalizing init with
  | nil =>
    obtain ⟨parts, hparts, rfl⟩ := hinit
    cases hparts
    rfl
  | cons pg pgs ih =>
    rw [List.forall_mem_cons] at h
    obtain ⟨first, hfirst, rest, hrest, rfl⟩ := jointInitialization_cons.mp hinit
    rw [h.1] at hfirst
    obtain rfl : first = [] := List.mem_singleton.mp hfirst
    exact ih h.2 hrest

theorem Starts.memory_eq (hcs : ∀ pg ∈ cs.components, pg.initializations = ∅) (h : cs.Starts x) :
    x.2 = ∅ := by
  obtain ⟨init, hinit, hmemory⟩ := h.initialized
  obtain rfl := hinit.eq_nil hcs
  exact (Except.ok.inj hmemory).symm

/-- A sequence of moves, each from the memory that the one before leaves. -/
theorem queues_of_moves (hcs : ∀ pg ∈ cs.components, pg.Spares c)
    {steps : List (String × (List String × Memory))} {x : List String × Memory}
    {messages : List Int64} (hx : x.2.readQueue c = .ok messages)
    (h : ∀ t ∈ Fragment.transitionsFrom x steps, cs.Moves t.source t.action t.target) :
    Memory.Queues c x.2 ((Fragment.transitionsFrom x steps).flatMap (Transition.sentOn c))
      ((Fragment.transitionsFrom x steps).flatMap (Transition.receivedOn c))
      (⟨x, steps⟩ : Fragment _ _).last.2 := by
  induction steps generalizing x messages with
  | nil => exact .unchanged hx rfl
  | cons step steps ih =>
    obtain ⟨a, y⟩ := step
    rw [Fragment.transitionsFrom, List.forall_mem_cons] at h
    have hstep := h.1.queues hcs hx
    obtain ⟨messages', hy⟩ := hstep.exists_messages
    rw [Fragment.last_cons, Fragment.transitionsFrom, List.flatMap_cons, List.flatMap_cons]
    exact hstep.append (ih hy h.2)

/-- A channel that the programs only send to and receive from is a queue: along every path of the
unfolding it passes on all messages once and in order. -/
theorem queues_of_path {bounds : Bounds}
    {ts : TransitionSystem (List String × Memory) String String}
    (hcs : ∀ pg ∈ cs.components, pg.Spares c)
    (hunfold : cs.unfold Evaluators.standard bounds = .ok ts)
    {e : Fragment (List String × Memory) String} (hhead : e.head ∈ ts.states)
    (hpath : ∀ t ∈ e.transitions, t ∈ ts.transitions) :
    Memory.Queues c e.head.2 (e.transitions.flatMap (Transition.sentOn c))
      (e.transitions.flatMap (Transition.receivedOn c)) e.last.2 := by
  obtain ⟨memories, space, hmemories, hexplore, rfl⟩ := unfold_eq_ok_iff.mp hunfold
  have hspace := StateSpace.isReachable_of_explore hexplore
  have hsteps := collects_movesFrom_standard fun pg hpg => (hcs pg hpg).isProcess
  have hmoves : ∀ t ∈ e.transitions, cs.Moves t.source t.action t.target :=
    fun t ht => ((hspace.mem_transitions_iff hsteps).mp (hpath t ht)).2
  -- The channel holds messages, or nothing, in every reachable state.
  have hmessages : ∃ messages, e.head.2.readQueue c = .ok messages := by
    obtain ⟨s, hs, n, hwalk⟩ := (hspace.mem_states_iff hsteps).mp hhead
    have hstart := ((mem_starts_iff hmemories).mp hs).memory_eq fun pg hpg =>
      (hcs pg hpg).initializations_eq
    refine hwalk.invariant (p := fun x => ∃ messages, x.2.readQueue c = .ok messages) ?_ ?_
    · exact ⟨[], by rw [hstart]; rfl⟩
    · rintro x y ⟨messages, hx⟩ ⟨a, hmove⟩
      exact (hmove.queues hcs hx).exists_messages
  obtain ⟨messages, hmessages⟩ := hmessages
  exact queues_of_moves hcs hmessages hmoves

/-- Two messages for a component that takes one of them, the second computed from the first. -/
def pipe : ChannelSystem String where
  components :=
    [ (Stmt.seq (.basic (.send "c" (.int 1)))
        (.basic (.send "c" (.binary .add (.var "x") (.int 2))))).graph,
      (Stmt.basic (.receive "c" "x")).graph ]

/-- The meaning of the texts of `pipe`, without reading them. -/
def pipeEvaluator : Evaluator where
  guard? _ _ := some (.ok true)
  effect? m text := some <|
    if text = "c!1" then Action.run m (.send "c" (.int 1))
    else if text = "c?x" then Action.run m (.receive "c" "x")
    else Action.run m (.send "c" (.binary .add (.var "x") (.int 2)))

theorem pipe_agreeOn : pipe.AgreeOn Evaluators.standard [pipeEvaluator] := by
  have hedges : pipe.edges =
      [⟨"c!1; c!x + 2", "true", "c!1", "c!x + 2"⟩, ⟨"c!x + 2", "true", "c!x + 2", ""⟩,
        ⟨"c?x", "true", "c?x", ""⟩] := rfl
  constructor
  case initialMemory =>
    intro init hinit m
    obtain rfl : init = [] := List.mem_singleton.mp hinit
    rfl
  case guard =>
    have htrue : ∀ e ∈ pipe.edges, e.guard = "true" := by simp [hedges]
    intro e he m b
    rw [htrue e he]
    exact (Condition.agree_guard_text (c := .always) rfl m).eq_ok_iff
  case effect =>
    intro e he _ m n
    simp only [hedges, List.mem_cons, List.not_mem_nil, or_false] at he
    obtain rfl | rfl | rfl := he
    · exact (Action.agree_effect_text (a := .send "c" (.int 1)) (by decide) rfl m).eq_ok_iff
    · exact (Action.agree_effect_text (a := .send "c" (.binary .add (.var "x") (.int 2)))
        (by decide) rfl m).eq_ok_iff
    · exact (Action.agree_effect_text (a := .receive "c" "x") (by decide) rfl m).eq_ok_iff
  case joint =>
    have hpair : ∀ e ∈ pipe.edges, ∀ f ∈ pipe.edges,
        Channel.isHandshake e.actionText f.actionText = false := by
      rw [hedges]
      decide
    intro e he f hf hhandshake
    rw [hpair e he f hf] at hhandshake
    cases hhandshake

/-- The first message is taken before the second is sent. -/
def pipePath : Fragment (List String × Memory) String where
  head := (["c!1; c!x + 2", "c?x"], ∅)
  steps :=
    [ ("c!1", (["c!x + 2", "c?x"], (∅ : Memory).set "c" (.queue [1]))),
      ("c?x", (["c!x + 2", ""], ((∅ : Memory).set "c" (.queue [])).set "x" (.int 1))),
      ("c!x + 2", (["", ""], ((∅ : Memory).set "c" (.queue [3])).set "x" (.int 1))) ]

theorem pipe_queues : ∃ ts, pipe.unfold Evaluators.standard {} = .ok ts ∧
    pipePath.head ∈ ts.states ∧ (∀ t ∈ pipePath.transitions, t ∈ ts.transitions) ∧
    Memory.Queues "c" pipePath.head.2 (pipePath.transitions.flatMap (Transition.sentOn "c"))
      (pipePath.transitions.flatMap (Transition.receivedOn "c")) pipePath.last.2 ∧
    pipePath.last.2.readQueue "c" = .ok [3] := by
  have hrun : ∃ ts, pipe.unfold [pipeEvaluator] {} = .ok ts ∧ pipePath.head ∈ ts.states ∧
      pipePath.transitions.all ts.transitions.contains = true := ⟨_, rfl, rfl, rfl⟩
  obtain ⟨ts, hts, hhead, hall⟩ := hrun
  have hpath : ∀ t ∈ pipePath.transitions, t ∈ ts.transitions := List.all_eq_true.mp hall
  have hunfold := (unfold_congr pipe_agreeOn).mpr hts
  refine ⟨ts, hunfold, hhead, hpath, queues_of_path (fun pg hpg => ?_) hunfold hhead hpath, rfl⟩
  simp only [pipe, List.mem_cons, List.not_mem_nil, or_false] at hpg
  obtain rfl | rfl := hpg
  · exact ProgramGraph.spares_graph (by decide) rfl (by decide)
  · exact ProgramGraph.spares_graph (by decide) rfl (by decide)

end ChannelSystem

end OmegaCheck
