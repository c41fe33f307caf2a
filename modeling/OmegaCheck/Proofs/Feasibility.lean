import OmegaCheck.Proofs.ChannelSystem.Meaning

/-!
# Edges that are left out

An edge whose guard holds is left out of an unfolding when its action has to wait: half of a
rendezvous for its partner, a receive for a message. As the marks of channels are looked for in the
text of the whole action, some assignments to names with a leading underscore are left out as well:
in a channel system all of them, in a program graph those whose value contains an exclamation mark.
-/

namespace OmegaCheck

namespace Channel

variable {m : Memory} {text : String}

theorem isFeasible_iff_of_source?_eq_none (h : source? text = none) :
    isFeasible m text = true ↔ ¬ (isRendezvous text = true ∧ '!' ∈ text.toList) := by
  have hsink : (sink? text).isSome = true ↔ '!' ∈ text.toList := by
    rw [sink?, before?]
    split
    · next hmem => simp [hmem]
    · next hmem => simp [hmem]
  simp only [isFeasible, h, Option.isSome_none, Bool.false_or, ← hsink, ← Bool.and_eq_true]
  cases isRendezvous text && (sink? text).isSome <;> simp

theorem isFeasible_iff_of_source?_eq_some {channel : String} (h : source? text = some channel) :
    isFeasible m text = true ↔ ¬ isRendezvous text = true ∧
      ∃ v vs, m.get? channel = some (.queue (v :: vs)) := by
  simp only [isFeasible, h, Option.isSome_some, Bool.true_or, Bool.and_true]
  cases isRendezvous text with
  | true => simp
  | false =>
    simp only [Bool.false_eq_true, if_false, not_false_eq_true, true_and]
    constructor
    · intro hqueue
      split at hqueue
      · next v vs hget => exact ⟨v, vs, hget⟩
      · cases hqueue
    · rintro ⟨v, vs, hget⟩
      simp only [hget]

theorem isRendezvous_append (h : isRendezvous text = true) (rest : String) :
    isRendezvous (text ++ rest) = true := by
  simp only [isRendezvous, decide_eq_true_eq] at h ⊢
  rw [String.toList_append, List.head?_append, h, Option.some_or]

end Channel

namespace Action

/-- A receive or a send on a rendezvous channel. -/
def IsHalf : Action → Prop
  | receive c _ => isRendezvousChannel c = true
  | send c _ => isRendezvousChannel c = true
  | _ => False

/-- The action cannot be taken by one component in this memory: it is half of a rendezvous, or a
receive from a channel without a message. -/
def Waits (m : Memory) (a : Action) : Prop :=
  a.IsHalf ∨ ∃ c x, a = receive c x ∧ ¬ ∃ v vs, m.get? c = some (.queue (v :: vs))

/-- An assignment to a name with the mark of a rendezvous channel. -/
def AssignsMarked : Action → Prop
  | assign x _ => isRendezvousChannel x = true
  | _ => False

variable {a : Action} {m : Memory}

theorem isRendezvous_text_assign {x : String} {value : Expr} (hx : isIdentifier x = true) :
    Channel.isRendezvous (assign x value).text = isRendezvousChannel x := by
  simp only [Channel.isRendezvous, isRendezvousChannel, text, assignmentText, String.toList_append,
    List.append_assoc, head?_append_of_isIdentifier hx]

/-- What has the mark of a rendezvous: the halves of one, and assignments that begin like them. -/
theorem isRendezvous_text_iff (ha : a.wellNamed = true) :
    Channel.isRendezvous a.text = true ↔ a.IsHalf ∨ a.AssignsMarked := by
  cases a with
  | skip => simp [IsHalf, AssignsMarked, Channel.isRendezvous, text]
  | atomic as => simp [IsHalf, AssignsMarked, Channel.isRendezvous, text]
  | assign x value =>
    rw [wellNamed, assignmentWellNamed, Bool.and_eq_true] at ha
    rw [isRendezvous_text_assign ha.1]
    simp [IsHalf, AssignsMarked]
  | receive c x =>
    rw [wellNamed, Bool.and_eq_true] at ha
    rw [isRendezvous_text_receive ha.1]
    simp [IsHalf, AssignsMarked]
  | send c value =>
    rw [wellNamed, Bool.and_eq_true] at ha
    rw [isRendezvous_text_send ha.1]
    simp [IsHalf, AssignsMarked]

theorem isFeasible_text_iff_not_waits (ha : a.wellNamed = true) :
    Channel.isFeasible m a.text = true ↔
      ¬ a.Waits m ∧ ¬ (a.AssignsMarked ∧ '!' ∈ a.text.toList) := by
  cases hsource : Channel.source? a.text with
  | some c =>
    obtain ⟨x, rfl⟩ := (source?_text_eq_some_iff ha).mp hsource
    rw [Channel.isFeasible_iff_of_source?_eq_some hsource, isRendezvous_text_iff ha]
    simp [Waits, AssignsMarked]
  | none =>
    have hreceive : ∀ c x, a ≠ receive c x := by
      rintro c x rfl
      rw [(source?_text_eq_some_iff ha).mpr ⟨x, rfl⟩] at hsource
      cases hsource
    -- A half that is no receive is a send, whose text has the mark.
    have hsend : a.IsHalf → '!' ∈ a.text.toList := by
      cases a with
      | send c value => simp [text]
      | receive c x => exact absurd rfl (hreceive c x)
      | _ => exact False.elim
    rw [Channel.isFeasible_iff_of_source?_eq_none hsource, isRendezvous_text_iff ha]
    simp only [Waits, hreceive, false_and, exists_false, or_false]
    tauto

end Action

variable {m n : Memory} {e : Edge String} {a : Option Action}

theorem Edge.Does.isFeasible_iff (ha : e.Does a) : Channel.isFeasible m e.action = true ↔
    ∀ b ∈ a, ¬ b.Waits m ∧ ¬ (b.AssignsMarked ∧ '!' ∈ b.text.toList) := by
  rw [ha.text]
  cases a with
  | none => exact ⟨fun _ b hb => (by cases hb), fun _ => rfl⟩
  | some b =>
    have hnamed := (Action.accepted_iff.mp (ha.accepted b rfl)).1
    simp only [Option.mem_some_iff, forall_eq']
    exact Action.isFeasible_text_iff_not_waits hnamed

theorem Edge.Does.isFeasible_unmarked_iff (ha : e.Does a) :
    Channel.isRendezvous e.action = false ∧ Channel.isFeasible m e.action = true ↔
      ∀ b ∈ a, ¬ b.Waits m ∧ ¬ b.AssignsMarked := by
  rw [ha.isFeasible_iff, ← Bool.not_eq_true, ha.text]
  cases a with
  | none => exact ⟨fun _ b hb => (by cases hb), fun _ => ⟨by decide, fun b hb => (by cases hb)⟩⟩
  | some b =>
    have hnamed := (Action.accepted_iff.mp (ha.accepted b rfl)).1
    have hhalf : b.IsHalf → b.Waits m := .inl
    simp only [Stmt.actionText, Action.isRendezvous_text_iff hnamed, Option.mem_some_iff,
      forall_eq']
    tauto

/-- Of the edges whose guards hold in a memory, those are taken whose actions neither wait nor are
`mistaken` for ones that do. -/
def Edge.TakenUnless (e : Edge String) (m : Memory) (mistaken : Action → Prop)
    (taken : Memory → Prop) : Prop :=
  (∃ a, e.Does a) ∧ ∀ a, e.Does a → ∀ n, taken n ↔
    Evaluators.standard.effect m e.action = .ok n ∧ ∀ b ∈ a, ¬ b.Waits m ∧ ¬ mistaken b

theorem ProgramGraph.takenUnless {pg : ProgramGraph String} (hpg : pg.IsProcess) {bounds : Bounds}
    {ts : TransitionSystem (String × Memory) String String}
    (h : pg.unfold Evaluators.standard bounds = .ok ts) (hx : (e.source, m) ∈ ts.states)
    (he : e ∈ pg.edges) (hguard : Evaluators.standard.guard m e.guard = .ok true) :
    e.TakenUnless m (fun b => b.AssignsMarked ∧ '!' ∈ b.text.toList)
      fun n => ⟨(e.source, m), e.action, (e.target, n)⟩ ∈ ts.transitions := by
  refine ⟨hpg.exists_does he, fun a ha n => ?_⟩
  obtain ⟨memories, space, _, hexplore, rfl⟩ := unfold_eq_ok_iff.mp h
  have hspace := StateSpace.isReachable_of_explore hexplore
  refine (hspace.mem_transitions_iff (R := fun x b y => ∃ f, f ∈ pg.edges ∧ f.source = x.1 ∧
    ∃ n, (edgeTrial Evaluators.standard x.2).Gives f n ∧ (b, y) = (f.action, (f.target, n)))
      collects_movesFrom).trans ?_
  rw [← ha.isFeasible_iff]
  constructor
  · -- Another edge with the same action may be the one that was taken.
    rintro ⟨_, f, _, _, n', ⟨hfeasible, _, heffect⟩, heq⟩
    simp only [Prod.mk.injEq] at heq
    obtain ⟨haction, _, rfl⟩ := heq
    rw [haction]
    exact ⟨heffect, hfeasible⟩
  · rintro ⟨heffect, hfeasible⟩
    exact ⟨hx, e, he, rfl, n, ⟨hfeasible, hguard, heffect⟩, rfl⟩

namespace ChannelSystem

variable {cs : ChannelSystem String}

theorem Moves.effect_of_unmarked {x y : List String × Memory} {label : String}
    (h : cs.Moves x label y) (hmark : Channel.isRendezvous label = false) :
    Evaluators.standard.effect x.2 label = .ok y.2 ∧ Channel.isFeasible x.2 label = true := by
  cases h with
  | alone he ha _ _ hqueue hrun =>
    exact ⟨ha.effect_eq_ok_iff.mpr hrun, (isFeasible_iff ha hmark).mpr hqueue⟩
  | joint _ _ _ hreceive hsend hc =>
    -- The label of a joint move begins with one of its halves, and so with the mark.
    have hhalf : ∀ {f : Edge String} {b : Action}, f.Does (some b) → b.IsHalf →
        ∀ rest, Channel.isRendezvous (f.action ++ "|" ++ rest) = true := by
      intro f b hb hhalf rest
      have hnamed := (Action.accepted_iff.mp (hb.accepted b rfl)).1
      rw [hb.text, String.append_assoc]
      exact Channel.isRendezvous_append ((Action.isRendezvous_text_iff hnamed).mpr (.inl hhalf)) _
    split at hmark
    · rw [hhalf hreceive (decide_eq_true hc)] at hmark
      cases hmark
    · rw [hhalf hsend (decide_eq_true hc)] at hmark
      cases hmark

theorem Moves.isRendezvous_eq_false {x y : List String × Memory} (ha : e.Does a)
    (h : cs.Moves x e.action y) : Channel.isRendezvous e.action = false := by
  rw [ha.text] at h ⊢
  cases a with
  | none => rfl
  | some b => exact isRendezvous_eq_false_iff.mpr (h.not_isRendezvous (ha.accepted b rfl))

theorem takenUnless (hcs : ∀ pg ∈ cs.components, pg.IsProcess) {bounds : Bounds}
    {ts : TransitionSystem (List String × Memory) String String}
    (h : cs.unfold Evaluators.standard bounds = .ok ts) {ls : List String}
    (hx : (ls, m) ∈ ts.states) {i : Nat} (he : cs.Offers ls i e)
    (hguard : Evaluators.standard.guard m e.guard = .ok true) :
    e.TakenUnless m Action.AssignsMarked
      fun n => ⟨(ls, m), e.action, (ls.set i e.target, n)⟩ ∈ ts.transitions := by
  refine ⟨exists_does_of_offers hcs he, fun a ha n => ?_⟩
  obtain ⟨memories, space, _, hexplore, rfl⟩ := unfold_eq_ok_iff.mp h
  have hspace := StateSpace.isReachable_of_explore hexplore
  refine (hspace.mem_transitions_iff (collects_movesFrom_standard hcs)).trans ?_
  rw [← ha.isFeasible_unmarked_iff]
  constructor
  · rintro ⟨_, hmove⟩
    have hmark := hmove.isRendezvous_eq_false ha
    obtain ⟨heffect, hfeasible⟩ := hmove.effect_of_unmarked hmark
    exact ⟨heffect, hmark, hfeasible⟩
  · rintro ⟨heffect, hmark, hfeasible⟩
    exact ⟨hx, .alone he ha (isRendezvous_eq_false_iff.mp hmark) hguard
      ((isFeasible_iff ha hmark).mp hfeasible) (ha.effect_eq_ok_iff.mp heffect)⟩

end ChannelSystem

/-- Which of the edges whose guards hold the two unfoldings take. -/
theorem unfold_takenUnless (bounds : Bounds) :
    (∀ (pg : ProgramGraph String) (ts : TransitionSystem (String × Memory) String String),
      pg.IsProcess → pg.unfold Evaluators.standard bounds = .ok ts →
      ∀ m e, (e.source, m) ∈ ts.states → e ∈ pg.edges →
        Evaluators.standard.guard m e.guard = .ok true →
        e.TakenUnless m (fun b => b.AssignsMarked ∧ '!' ∈ b.text.toList)
          fun n => ⟨(e.source, m), e.action, (e.target, n)⟩ ∈ ts.transitions) ∧
    ∀ (cs : ChannelSystem String) (ts : TransitionSystem (List String × Memory) String String),
      (∀ pg ∈ cs.components, pg.IsProcess) → cs.unfold Evaluators.standard bounds = .ok ts →
      ∀ ls m i e, (ls, m) ∈ ts.states → cs.Offers ls i e →
        Evaluators.standard.guard m e.guard = .ok true →
        e.TakenUnless m Action.AssignsMarked
          fun n => ⟨(ls, m), e.action, (ls.set i e.target, n)⟩ ∈ ts.transitions := by
  constructor
  · intro pg ts hpg h m e hx he hguard
    exact ProgramGraph.takenUnless hpg h hx he hguard
  · intro cs ts hcs h ls m i e hx he hguard
    exact ChannelSystem.takenUnless hcs h hx he hguard

def assigning (value : Expr) : Stmt := .basic (.assign "_x" value)

def assigningEdge (value : Expr) : Edge String :=
  ⟨(assigning value).text, "true", (assigning value).text, ""⟩

/-- The program has one edge, and nothing but the text of its action keeps it from being taken. -/
structure IsAssignable (value : Expr) : Prop where
  edges : (assigning value).graph.edges.toList = [assigningEdge value]
  does : (assigningEdge value).Does (some (.assign "_x" value))
  guard : ∀ m, Evaluators.standard.guard m (assigningEdge value).guard = .ok true
  effect : Evaluators.standard.effect ∅ (assigningEdge value).action =
    .ok ((∅ : Memory).set "_x" (.int 1))

theorem isAssignable {value : Expr} (haccepted : (Action.assign "_x" value).accepted = true)
    (hvalue : value.eval ∅ = .ok 1)
    (hedges : (assigning value).graph.edges.toList = [assigningEdge value]) :
    IsAssignable value := by
  have hdoes : (assigningEdge value).Does (some (.assign "_x" value)) := by
    refine ⟨rfl, fun b hb => ?_⟩
    cases hb
    exact haccepted
  refine ⟨hedges, hdoes, fun m => ?_, hdoes.effect_eq_ok_iff.mpr ?_⟩
  · exact (Condition.agree_guard_text (c := .always) rfl m).eq_ok_iff.mpr rfl
  · exact bind_eq_ok_iff.mpr ⟨1, hvalue, rfl⟩

theorem IsAssignable.mem_edges_iff {value : Expr} (h : IsAssignable value) {e : Edge String} :
    e ∈ (assigning value).graph.edges ↔ e = assigningEdge value := by
  rw [← FinSet.mem_toList, h.edges, List.mem_singleton]

theorem IsAssignable.offers {value : Expr} (h : IsAssignable value) :
    (⟨[(assigning value).graph]⟩ : ChannelSystem String).Offers [(assigning value).text] 0
      (assigningEdge value) :=
  ⟨_, rfl, h.mem_edges_iff.mpr rfl, rfl⟩

theorem isAssignable_int : IsAssignable (.int 1) := isAssignable (by decide) rfl rfl

theorem isAssignable_not : IsAssignable (.not (.var "y")) := isAssignable (by decide) rfl rfl

/-- The meaning of the texts of the program `_x := 1`, without reading them. -/
def assigningEvaluator : Evaluator where
  guard? _ _ := some (.ok true)
  effect? m _ := some (Action.run m (.assign "_x" (.int 1)))

theorem unfold_assigning_iff {ts : TransitionSystem (String × Memory) String String} :
    (assigning (.int 1)).graph.unfold Evaluators.standard {} = .ok ts ↔
      (assigning (.int 1)).graph.unfold [assigningEvaluator] {} = .ok ts := by
  refine ProgramGraph.unfold_congr (fun init hinit m => ?_) (fun e he m b => ?_) fun e he m n => ?_
  · obtain rfl : init = [] := List.mem_singleton.mp hinit
    rfl
  · rw [isAssignable_int.mem_edges_iff.mp he, isAssignable_int.guard m]
    rfl
  · rw [isAssignable_int.mem_edges_iff.mp he]
    exact isAssignable_int.does.effect_eq_ok_iff

/-- One and the same program takes its step as a program graph but not in a channel system. -/
theorem unfold_assigning_takenUnless : ∃ ts us,
    (assigning (.int 1)).graph.unfold Evaluators.standard {} = .ok ts ∧
    (⟨[(assigning (.int 1)).graph]⟩ : ChannelSystem String).unfold Evaluators.standard {} = .ok us ∧
    ⟨("_x := 1", ∅), "_x := 1", ("", (∅ : Memory).set "_x" (.int 1))⟩ ∈ ts.transitions ∧
    ⟨(["_x := 1"], ∅), "_x := 1", ([""], (∅ : Memory).set "_x" (.int 1))⟩ ∉ us.transitions := by
  obtain ⟨htaken, hleft⟩ := unfold_takenUnless {}
  have hprocess : (assigning (.int 1)).graph.IsProcess :=
    ProgramGraph.isProcess_graph (by decide) rfl
  have hts : ∃ ts, (assigning (.int 1)).graph.unfold [assigningEvaluator] {} = .ok ts ∧
      ("_x := 1", ∅) ∈ ts.states.toList := ⟨_, rfl, by decide⟩
  have hus : ∃ us, (⟨[(assigning (.int 1)).graph]⟩ : ChannelSystem String).unfold
      Evaluators.standard {} = .ok us ∧ (["_x := 1"], ∅) ∈ us.states.toList := ⟨_, rfl, by decide⟩
  obtain ⟨ts, hts, hx⟩ := hts
  obtain ⟨us, hus, hy⟩ := hus
  have hts := unfold_assigning_iff.mpr hts
  refine ⟨ts, us, hts, hus, ?_, fun hmem => ?_⟩
  · have h := htaken _ ts hprocess hts ∅ (assigningEdge (.int 1)) (FinSet.mem_toList.mp hx)
      (isAssignable_int.mem_edges_iff.mpr rfl) (isAssignable_int.guard ∅)
    refine (h.2 _ isAssignable_int.does _).mpr ⟨isAssignable_int.effect, fun b hb => ?_⟩
    cases hb
    exact ⟨by simp [Action.Waits, Action.IsHalf], fun hmark => absurd hmark.2 (by decide)⟩
  · have h := hleft _ us (List.forall_mem_singleton.mpr hprocess) hus _ ∅ 0 _
      (FinSet.mem_toList.mp hy) isAssignable_int.offers (isAssignable_int.guard ∅)
    exact (((h.2 _ isAssignable_int.does _).mp hmem).2 _ rfl).2 rfl

/-- Both unfoldings leave out an assignment that could be made: the program graph one whose value
is a negation, the channel system any whose target begins with an underscore. -/
theorem unfold_leaves_out_assigning : ∃ ts us,
    (assigning (.not (.var "y"))).graph.unfold Evaluators.standard {} = .ok ts ∧
    (⟨[(assigning (.int 1)).graph]⟩ : ChannelSystem String).unfold Evaluators.standard {} = .ok us ∧
    ((assigning (.not (.var "y"))).text, ∅) ∈ ts.states ∧
    ([(assigning (.int 1)).text], ∅) ∈ us.states ∧
    IsAssignable (.not (.var "y")) ∧ IsAssignable (.int 1) ∧
    ⟨("_x := !y", ∅), "_x := !y", ("", (∅ : Memory).set "_x" (.int 1))⟩ ∉ ts.transitions ∧
    ⟨(["_x := 1"], ∅), "_x := 1", ([""], (∅ : Memory).set "_x" (.int 1))⟩ ∉ us.transitions := by
  have hts : ∃ ts, (assigning (.not (.var "y"))).graph.unfold Evaluators.standard {} = .ok ts ∧
      ("_x := !y", ∅) ∈ ts.states.toList ∧ ts.transitions.toList = [] := ⟨_, rfl, by decide, rfl⟩
  have hus : ∃ us, (⟨[(assigning (.int 1)).graph]⟩ : ChannelSystem String).unfold
      Evaluators.standard {} = .ok us ∧ (["_x := 1"], ∅) ∈ us.states.toList ∧
      us.transitions.toList = [] := ⟨_, rfl, by decide, rfl⟩
  obtain ⟨ts, hts, hx, hnone⟩ := hts
  obtain ⟨us, hus, hy, hnone'⟩ := hus
  refine ⟨ts, us, hts, hus, FinSet.mem_toList.mp hx, FinSet.mem_toList.mp hy, isAssignable_not,
    isAssignable_int, ?_, ?_⟩
  · rw [← FinSet.mem_toList, hnone]
    exact List.not_mem_nil
  · rw [← FinSet.mem_toList, hnone']
    exact List.not_mem_nil

end OmegaCheck
