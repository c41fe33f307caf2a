import OmegaCheck.Proofs.Channel
import OmegaCheck.Proofs.Program.Exactness
import OmegaCheck.Proofs.Program.Rereading

/-!
# Handshakes by their text

The label of a joint step is a text, and what the step does is found by reading that text. The
value sent is then the value of the expression of the send, and an error is the error of that
expression, except that it names the part that failed as it is read. This shows in the message only
where a minus sign stands before a zero.
-/

namespace OmegaCheck

theorem EvalError.message_eq {err : EvalError} (h : err.isFailure = true) :
    err.message = "evaluation failed: " ++ err.reason := by
  cases err with
  | unrecognized => cases h
  | _ => rfl

namespace Expr

variable {m : Memory} {e x : Expr}

theorem unsigned_of_neg {p : Int64 → Bool} (h : (neg e).unsigned p = true) :
    e.unsigned p = true := by
  cases e with
  | int n => rfl
  | _ => exact h

theorem unsigned_of_mem_visited {p : Int64 → Bool} (h : e.unsigned p = true)
    (hx : x ∈ e.visited m) : x.unsigned p = true := by
  induction e with
  | int | bool | var =>
    obtain rfl := List.mem_singleton.mp hx
    exact h
  | neg e ih =>
    rcases List.mem_append.mp hx with hx | hx
    · exact ih (unsigned_of_neg h) hx
    · obtain rfl := List.mem_singleton.mp hx
      exact h
  | not e ih =>
    rcases List.mem_append.mp hx with hx | hx
    · exact ih h hx
    · obtain rfl := List.mem_singleton.mp hx
      exact h
  | binary op lhs rhs ihl ihr =>
    have hparts : lhs.unsigned p = true ∧ rhs.unsigned p = true := by
      rwa [unsigned, Bool.and_eq_true] at h
    rw [visited, List.mem_append, List.mem_append] at hx
    rcases hx with hx | hx | hx
    · exact ihl hparts.1 hx
    · split at hx
      · cases hx
      · exact ihr hparts.2 hx
    · obtain rfl := List.mem_singleton.mp hx
      exact h

theorem text_norm (h : e.unsigned isZero = true) : e.norm.text = e.text := by
  rw [← text_canon e.norm, canon_norm_eq_iff.mpr h, text_canon]

-- The sign of a zero is lost.
example : (binary .div (neg (int 0)) (int 0)).text = "-0 / 0" ∧
    (binary .div (neg (int 0)) (int 0)).norm.text = "0 / 0" := by decide

/-- Without a signed zero an error is worded as it was. -/
theorem message_reread {err : EvalError} (h : e.unsigned isZero = true)
    (herr : e.eval m = .error err) : err.reread.message = err.message := by
  obtain ⟨before, x, after, hxs, _, hflaw⟩ := failsFirstWith_of_eval herr
  have hx : x.norm.text = x.text :=
    text_norm (unsigned_of_mem_visited h (m := m) (by simp [hxs]))
  have hfailure : err.isFailure = true := hflaw.isFailure
  have hreason : err.reread.reason = err.reason := by
    cases hflaw with
    | queue => rfl
    | range | quotient => exact congrArg ("overflow in " ++ ·) hx
    | zeroDivisor => exact congrArg ("division by zero in " ++ ·) hx
  rw [EvalError.message_eq hfailure, ← hreason]
  exact EvalError.message_eq ((EvalError.isFailure_reread err).trans hfailure)

end Expr

/-- The result of handing the value of `e` over to `target`: the target is bound to it, or the
evaluation fails as that of `e` does. -/
structure HandsOver (m : Memory) (target : String) (e : Expr) (result : Except EvalError Memory) :
    Prop where
  value : ∀ v, e.eval m = .ok v → result = .ok (m.set target (.int v))
  error : ∀ err, e.eval m = .error err → result = .error err.reread
  wording : e.unsigned Expr.isZero = true →
    ∀ err, e.eval m = .error err → err.reread.message = err.message
  failure : ∀ err, result = .error err → err.isFailure = true

/-- The value that was handed over is read back under the target, and everything else as before. -/
theorem HandsOver.exists_get? {m : Memory} {target : String} {e : Expr}
    {result : Except EvalError Memory} {v : Int64} (h : HandsOver m target e result)
    (hv : e.eval m = .ok v) : ∃ n, result = .ok n ∧
      ∀ y, n.get? y = if y = target then some (.int v) else m.get? y :=
  ⟨_, h.value v hv, Memory.set_eq_iff.mp rfl⟩

theorem handsOver_eval_norm (m : Memory) (target : String) (e : Expr) :
    HandsOver m target e (do let v ← e.norm.eval m; return m.set target (.int v)) := by
  have hreworded := e.reworded_eval_norm m
  refine ⟨fun v hv => ?_, fun err herr => ?_, fun hzero err herr => Expr.message_reread hzero herr,
    fun err herr => ?_⟩
  · rw [hreworded.eq_ok hv]
    rfl
  · rw [(hreworded.eq_error herr).1]
    rfl
  · cases heval : e.eval m with
    | ok v =>
      rw [hreworded.eq_ok heval] at herr
      cases herr
    | error err' =>
      obtain ⟨hnorm, hfailure⟩ := hreworded.eq_error heval
      rw [hnorm] at herr
      cases herr
      rw [EvalError.isFailure_reread]
      exact hfailure

namespace Action

variable {a b : Action} {m : Memory} {c x : String}

theorem exists_run_receive_iff (hc : isRendezvousChannel c = false) :
    (∃ n, (receive c x).run m = .ok n) ↔ ∃ v vs, m.get? c = some (.queue (v :: vs)) := by
  constructor
  · rintro ⟨n, hrun⟩
    obtain ⟨_, v, vs, hqueue, _⟩ := run_receive_eq_ok_iff.mp hrun
    exact ⟨v, vs, hqueue⟩
  · rintro ⟨v, vs, hqueue⟩
    refine ⟨(m.set c (.queue vs)).set x (.int v), run_receive_eq_ok_iff.mpr ⟨hc, v, vs, hqueue, ?_⟩⟩
    simp only [Memory.get?_set, implies_true]

theorem isFeasible_text_receive_iff (ha : (receive c x).wellNamed = true)
    (hc : isRendezvousChannel c = false) :
    Channel.isFeasible m (receive c x).text = true ↔
      ∃ n, Evaluators.standard.effect m (receive c x).text = .ok n := by
  have hname : isIdentifier c = true := by
    rw [wellNamed, Bool.and_eq_true] at ha
    exact ha.1
  have hmark : Channel.isRendezvous (receive c x).text = false := by
    rw [isRendezvous_text_receive hname, hc]
  have hrun : ∀ n, Evaluators.standard.effect m (receive c x).text = .ok n ↔
      (receive c x).run m = .ok n := fun n => (agree_effect_text ha rfl m).eq_ok_iff
  simp only [hrun]
  rw [isFeasible_text_iff ha hmark, exists_run_receive_iff hc]
  constructor
  · exact fun h => h c x rfl
  · rintro h c' x' ⟨⟩
    exact h

/-- What is found in the texts of two actions is what the actions are, and their joint step does what
a handshake does. -/
theorem texts_tell (ha : a.wellNamed = true) (hb : b.wellNamed = true) (m : Memory) :
    (Channel.isHandshake a.text b.text = true ↔
      ∃ c x e, a = receive c x ∧ b = send c e ∧ isRendezvousChannel c = true) ∧
    (∀ c, Channel.source? a.text = some c ↔ ∃ x, a = receive c x) ∧
    (∀ c x, a = receive c x → isRendezvousChannel c = false →
      (Channel.isFeasible m a.text = true ↔
        ∃ n, Evaluators.standard.effect m a.text = .ok n)) ∧
    ∀ c x e, a = receive c x → b = send c e → isRendezvousChannel c = true → ∀ i j,
      HandsOver m x e (Evaluators.standard.effect m (Channel.handshakeLabel i a.text j b.text)) := by
  refine ⟨isHandshake_text_iff ha hb, fun c => source?_text_eq_some_iff ha, ?_, ?_⟩
  · rintro c x rfl hc
    exact isFeasible_text_receive_iff ha hc
  · rintro c x e rfl rfl _ i j
    rw [effect_handshakeLabel (accepted_iff.mpr ⟨ha, rfl⟩) (accepted_iff.mpr ⟨hb, rfl⟩)]
    exact handsOver_eval_norm m x e

/-- A value whose text is full of marks: signs of negation and inequality, bars and a minus sign. -/
def marked : Expr :=
  .binary .or (.binary .ne (.not (.var "_y")) (.neg (.int 3)))
    (.binary .mod (.int 1) (.binary .sub (.int 0) (.var "_y")))

theorem texts_tell_marked :
    Channel.isHandshake "_c?x" "_c!!_y != -3 || 1 % (0 - _y)" = true ∧
      HandsOver ∅ "x" marked
        (Evaluators.standard.effect ∅ "_c!!_y != -3 || 1 % (0 - _y)|_c?x") ∧
      Evaluators.standard.effect ∅ "_c!!_y != -3 || 1 % (0 - _y)|_c?x" =
        .ok (Memory.set ∅ "x" (.int 1)) := by
  have htext : (send "_c" marked).text = "_c!!_y != -3 || 1 % (0 - _y)" := by decide
  obtain ⟨hshake, _, _, hlabel⟩ :=
    texts_tell (show (receive "_c" "x").wellNamed = true by decide)
      (show (send "_c" marked).wellNamed = true by decide) ∅
  have hover := hlabel "_c" "x" marked rfl rfl rfl 1 0
  rw [htext] at hshake hover
  exact ⟨hshake.mpr ⟨"_c", "x", marked, rfl, rfl, rfl⟩, hover, hover.value 1 rfl⟩

end Action

end OmegaCheck
