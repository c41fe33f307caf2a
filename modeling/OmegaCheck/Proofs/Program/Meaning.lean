import OmegaCheck.Evaluator
import OmegaCheck.Proofs.Program.UniqueReading

/-!
# The meaning of printed expressions and actions

The text of an expression or action is evaluated as the expression or action itself. The two sides
may word an error differently, since an error names the expression that was read, so they agree when
they have the same value or both fail; neither fails because a text is not understood.
-/

namespace OmegaCheck

/-- The evaluation failed, as opposed to a text that nothing understands. -/
def EvalError.isFailure : EvalError → Bool
  | unrecognized _ => false
  | _ => true

/-- The same value, or a failed evaluation on both sides. -/
inductive Agree {α : Type} : Except EvalError α → Except EvalError α → Prop
  | ok (v : α) : Agree (.ok v) (.ok v)
  | error {e f : EvalError} (he : e.isFailure = true) (hf : f.isFailure = true) :
      Agree (.error e) (.error f)

namespace Agree

variable {α β : Type} {x y : Except EvalError α}

theorem eq_ok_iff (h : Agree x y) {v : α} : x = .ok v ↔ y = .ok v := by
  cases h with
  | ok v => rfl
  | error he hf =>
    constructor
    · intro h
      cases h
    · intro h
      cases h

theorem bind {f g : α → Except EvalError β} (h : Agree x y) (hfg : ∀ v, Agree (f v) (g v)) :
    Agree (x >>= f) (y >>= g) := by
  cases h with
  | ok v => exact hfg v
  | error he hf => exact .error he hf

theorem map (f : α → β) (h : Agree x y) : Agree (x.map f) (y.map f) := by
  cases h with
  | ok v => exact .ok (f v)
  | error he hf => exact .error he hf

end Agree

/-- The error with the expression that it names as that is read from its text. -/
def EvalError.reread : EvalError → EvalError
  | overflow e => overflow e.norm
  | divisionByZero e => divisionByZero e.norm
  | e => e

theorem EvalError.isFailure_reread (err : EvalError) : err.reread.isFailure = err.isFailure := by
  cases err <;> rfl

/-- The same value, or a failed evaluation that names what was read. -/
inductive Reworded {α : Type} : Except EvalError α → Except EvalError α → Prop
  | ok (v : α) : Reworded (.ok v) (.ok v)
  | error (err : EvalError) (h : err.isFailure = true) : Reworded (.error err.reread) (.error err)

namespace Reworded

variable {α β : Type} {x y : Except EvalError α}

theorem agree (h : Reworded x y) : Agree x y := by
  cases h with
  | ok v => exact .ok v
  | error err hfailure => exact .error (err.isFailure_reread.trans hfailure) hfailure

theorem bind {f g : α → Except EvalError β} (h : Reworded x y) (hfg : ∀ v, Reworded (f v) (g v)) :
    Reworded (x >>= f) (y >>= g) := by
  cases h with
  | ok v => exact hfg v
  | error err hfailure => exact .error err hfailure

theorem eq_ok {v : α} (h : Reworded x y) (hy : y = .ok v) : x = .ok v := h.agree.eq_ok_iff.mpr hy

theorem eq_error {err : EvalError} (h : Reworded x y) (hy : y = .error err) :
    x = .error err.reread ∧ err.isFailure = true := by
  cases h with
  | ok v => cases hy
  | error err hfailure =>
    cases hy
    exact ⟨rfl, hfailure⟩

end Reworded

namespace Memory

/-- A cell was bound: it is read back under its name, and everything else as before. -/
theorem set_eq_iff {m n : Memory} {name : String} {cell : Cell} :
    m.set name cell = n ↔
      ∀ other, n.get? other = if other = name then some cell else m.get? other := by
  constructor
  · rintro rfl other
    exact m.get?_set name other cell
  · intro h
    exact ext fun other => (m.get?_set name other cell).trans (h other).symm

variable (m : Memory) (name : String)

theorem reworded_readInt : Reworded (m.readInt name) (m.readInt name) := by
  unfold readInt
  split
  · exact .ok 0
  · exact .ok _
  · exact .error (.queueAsInteger name) rfl

theorem agree_readQueue : Agree (m.readQueue name) (m.readQueue name) := by
  unfold readQueue
  split
  · exact .ok []
  · exact .ok _
  · exact .error rfl rfl

end Memory

namespace Expr

theorem reworded_checked (e : Expr) (n : Int) :
    Reworded (match int64? n with
        | some v => .ok v
        | none => .error (.overflow e.norm))
      (match int64? n with
        | some v => .ok v
        | none => .error (.overflow e)) := by
  cases int64? n with
  | some v => exact .ok v
  | none => exact .error (.overflow e) rfl

theorem reworded_combine (e : Expr) (op : BinOp) (a b : Int64) :
    Reworded (combine e.norm op a b) (combine e op a b) := by
  cases op
  case add | sub | mul => exact reworded_checked e _
  case div =>
    simp only [combine]
    split
    · exact .error (.divisionByZero e) rfl
    · exact reworded_checked e _
  case mod =>
    simp only [combine]
    split
    · exact .error (.divisionByZero e) rfl
    · split
      · exact .error (.overflow e) rfl
      · exact reworded_checked e _
  all_goals exact .ok _

theorem reworded_eval_neg_literal (m : Memory) {n : Int64} (hn : 0 ≤ n) :
    Reworded ((int (-n)).eval m) ((neg (int n)).eval m) := by
  have hhigh := n.toInt_lt
  rw [Int64.le_iff_toInt_le, Int64.toInt_zero] at hn
  have hrange : int64? (-n.toInt) = some (-n) := by
    have hbounds : Int64.minValue.toInt ≤ -n.toInt ∧ -n.toInt ≤ Int64.maxValue.toInt := by
      change -2 ^ 63 ≤ -n.toInt ∧ -n.toInt ≤ 2 ^ 63 - 1
      omega
    rw [int64?, if_pos hbounds, ← Int64.neg_ofInt, Int64.ofInt_toInt]
  simp only [eval, bind, Except.bind, hrange]
  exact .ok (-n)

/-- Reading the text of an expression does not change its value, and its errors only in the
expression that they name. -/
theorem reworded_eval_norm (m : Memory) (e : Expr) : Reworded (e.norm.eval m) (e.eval m) := by
  induction e with
  | int n => exact .ok n
  | bool b => exact .ok (truth b)
  | var name => exact m.reworded_readInt name
  | neg e ih =>
    by_cases hlit : ∃ n, 0 ≤ n ∧ e = int n
    · obtain ⟨n, hn, rfl⟩ := hlit
      rw [norm, if_pos hn]
      exact reworded_eval_neg_literal m hn
    · have hnorm : (neg e).norm = neg e.norm := norm_neg_of_ne fun n hn he => hlit ⟨n, hn, he⟩
      rw [hnorm]
      apply ih.bind
      intro v
      rw [← hnorm]
      exact reworded_checked (neg e) _
  | not e ih =>
    apply ih.bind
    intro v
    exact .ok _
  | binary op lhs rhs ihl ihr =>
    apply ihl.bind
    intro a
    cases shortcut? op a with
    | some v => exact .ok v
    | none =>
      apply ihr.bind
      intro b
      exact reworded_combine (binary op lhs rhs) op a b

theorem agree_eval_norm (m : Memory) (e : Expr) : Agree (e.norm.eval m) (e.eval m) :=
  (e.reworded_eval_norm m).agree

/-- Whether the value of an expression counts as true. -/
def holds (m : Memory) (e : Expr) : Except EvalError Bool := (e.eval m).map (· ≠ 0)

theorem agree_holds_norm (m : Memory) (e : Expr) : Agree (e.norm.holds m) (e.holds m) :=
  (e.agree_eval_norm m).map _

end Expr

namespace Action

/-- What an action does: nothing, its assignments in order, or one message pushed or popped. Half
of a rendezvous cannot be run alone. -/
def run (m : Memory) : Action → Except EvalError Memory
  | skip => .ok m
  | assign name value => do
    let v ← value.eval m
    return m.set name (.int v)
  | atomic assignments => assignments.foldlM (fun m a => do
      let v ← a.2.eval m
      return m.set a.1 (.int v)) m
  | receive channel target =>
    if isRendezvousChannel channel then .error (.loneRendezvous (receive channel target).text)
    else do
      match ← m.readQueue channel with
      | [] => .error (.emptyChannel channel)
      | v :: messages => return (m.set channel (.queue messages)).set target (.int v)
  | send channel value =>
    if isRendezvousChannel channel then .error (.loneRendezvous (send channel value).text)
    else do
      let messages ← m.readQueue channel
      let v ← value.eval m
      return m.set channel (.queue (messages ++ [v]))

section Bindings

variable {m n : Memory} {c x : String} {value : Expr}

theorem run_assign_eq_ok_iff :
    (assign x value).run m = .ok n ↔ ∃ v, value.eval m = .ok v ∧
      ∀ y, n.get? y = if y = x then some (.int v) else m.get? y := by
  simp only [← Memory.set_eq_iff]
  rw [run]
  cases value.eval m with
  | error err => simp [bind, Except.bind]
  | ok v => simp [bind, Except.bind, pure, Except.pure]

theorem run_atomic_cons (a : String × Expr) (as : List (String × Expr)) :
    (atomic (a :: as)).run m = (assign a.1 a.2).run m >>= fun k => (atomic as).run k := by
  simp only [run, List.foldlM_cons]

/-- The oldest message moves into the target. -/
theorem run_receive_eq_ok_iff :
    (receive c x).run m = .ok n ↔ isRendezvousChannel c = false ∧
      ∃ v messages, m.get? c = some (.queue (v :: messages)) ∧
        ∀ y, n.get? y = if y = x then some (.int v)
          else if y = c then some (.queue messages) else m.get? y := by
  have hset : ∀ v messages, (m.set c (.queue messages)).set x (.int v) = n ↔
      ∀ y, n.get? y = if y = x then some (.int v)
        else if y = c then some (.queue messages) else m.get? y := by
    intro v messages
    simp only [Memory.set_eq_iff, Memory.get?_set]
  simp only [← hset]
  rw [run, Memory.readQueue]
  cases isRendezvousChannel c with
  | true => simp
  | false =>
    cases m.get? c with
    | none => simp [bind, Except.bind]
    | some cell =>
      cases cell with
      | int k => simp [bind, Except.bind]
      | queue messages =>
        cases messages with
        | nil => simp [bind, Except.bind]
        | cons v messages => simp [bind, Except.bind, pure, Except.pure, and_assoc]

/-- The value is the last message then. -/
theorem run_send_eq_ok_iff :
    (send c value).run m = .ok n ↔ isRendezvousChannel c = false ∧
      ∃ messages v, m.readQueue c = .ok messages ∧ value.eval m = .ok v ∧
        ∀ y, n.get? y = if y = c then some (.queue (messages ++ [v])) else m.get? y := by
  simp only [← Memory.set_eq_iff]
  rw [run]
  cases isRendezvousChannel c with
  | true => simp
  | false =>
    cases m.readQueue c with
    | error err => simp [bind, Except.bind]
    | ok messages =>
      cases value.eval m with
      | error err => simp [bind, Except.bind]
      | ok v => simp [bind, Except.bind, pure, Except.pure]

/-- The names that an action binds. -/
def written : Action → List String
  | skip => []
  | assign name _ => [name]
  | atomic assignments => assignments.map Prod.fst
  | receive channel target => [channel, target]
  | send channel _ => [channel]

theorem get?_of_run_atomic {as : List (String × Expr)} {y : String} (hy : y ∉ as.map Prod.fst)
    (h : (atomic as).run m = .ok n) : n.get? y = m.get? y := by
  induction as generalizing m with
  | nil =>
    cases h
    rfl
  | cons a as ih =>
    rw [List.map_cons, List.mem_cons, not_or] at hy
    rw [run_atomic_cons] at h
    cases hfirst : (assign a.1 a.2).run m with
    | error err =>
      rw [hfirst] at h
      cases h
    | ok k =>
      rw [hfirst] at h
      obtain ⟨v, _, hk⟩ := run_assign_eq_ok_iff.mp hfirst
      rw [ih hy.2 h, hk, if_neg hy.1]

/-- Everything else is left as it is. -/
theorem get?_of_run {a : Action} {y : String} (hy : y ∉ a.written) (h : a.run m = .ok n) :
    n.get? y = m.get? y := by
  cases a with
  | skip =>
    cases h
    rfl
  | assign name value =>
    obtain ⟨v, _, hn⟩ := run_assign_eq_ok_iff.mp h
    rw [hn, if_neg fun hxy => hy (List.mem_singleton.mpr hxy)]
  | atomic as => exact get?_of_run_atomic hy h
  | receive channel target =>
    obtain ⟨_, v, messages, _, hn⟩ := run_receive_eq_ok_iff.mp h
    simp only [written, List.mem_cons, List.not_mem_nil, or_false, not_or] at hy
    rw [hn, if_neg hy.2, if_neg hy.1]
  | send channel value =>
    obtain ⟨_, messages, v, _, _, hn⟩ := run_send_eq_ok_iff.mp h
    rw [hn, if_neg fun hxy => hy (List.mem_singleton.mpr hxy)]

end Bindings

theorem agree_assignAll_norm (m : Memory) (as : List (String × Expr)) :
    Agree (assignAll m (as.map fun a => (a.1, a.2.norm))) ((atomic as).run m) := by
  induction as generalizing m with
  | nil => exact .ok m
  | cons a as ih =>
    rw [List.map_cons, assignAll, run, List.foldlM_cons, bind_assoc]
    apply (a.2.agree_eval_norm m).bind
    intro v
    exact ih (m.set a.1 (.int v))

end Action

namespace Evaluators

variable (m : Memory) {text : String}

theorem standard_guard_eq {e : Expr} (hblank : ¬ Evaluator.isBlankText text = true)
    (hparse : Expr.parse text = .ok e) : standard.guard m text = e.holds m := by
  simp [guard, standard, Evaluator.assignments, hblank, hparse, Except.toOption, Expr.holds]

theorem standard_effect_eq {a : Action} (hblank : ¬ Evaluator.isBlankText text = true)
    (hparse : Action.parse text = .ok a) : standard.effect m text =
      ((Evaluator.perform? m a).or (Evaluator.communicate? m text a)).getD
        (.error (.unrecognized text)) := by
  cases h : Evaluator.perform? m a <;>
    simp [effect, standard, Evaluator.assignments, Evaluator.channels, hblank, hparse,
      Except.toOption, h]

end Evaluators

namespace Action

/-- Evaluating the text of an action does what the action does. -/
theorem agree_effect_text {a : Action} (ha : a.wellNamed = true) (hfilled : a.filled = true)
    (m : Memory) : Agree (Evaluators.standard.effect m a.text) (a.run m) := by
  rw [Evaluators.standard_effect_eq m (a.prints_text ha).opens.not_isBlank (parse_text ha hfilled)]
  cases a with
  | skip => exact .ok m
  | assign name value =>
    apply (value.agree_eval_norm m).bind
    intro v
    exact .ok _
  | atomic as => exact agree_assignAll_norm m as
  | receive channel target =>
    by_cases hchannel : isRendezvousChannel channel = true
    · simp only [norm, mapExprs, Evaluator.perform?, Evaluator.communicate?, run, if_pos hchannel]
      exact .error rfl rfl
    · simp only [norm, mapExprs, Evaluator.perform?, Evaluator.communicate?, run, if_neg hchannel]
      apply (m.agree_readQueue channel).bind
      intro messages
      cases messages with
      | nil => exact .error rfl rfl
      | cons v messages => exact .ok _
  | send channel value =>
    by_cases hchannel : isRendezvousChannel channel = true
    · simp only [norm, mapExprs, Evaluator.perform?, Evaluator.communicate?, run, if_pos hchannel]
      exact .error rfl rfl
    · simp only [norm, mapExprs, Evaluator.perform?, Evaluator.communicate?, run, if_neg hchannel]
      apply (m.agree_readQueue channel).bind
      intro messages
      apply (value.agree_eval_norm m).bind
      intro v
      exact .ok _

/-- The texts of some actions make the memory that the actions make one after the other, from the
empty one. -/
theorem agree_initialMemory_texts (as : List Action)
    (has : ∀ a ∈ as, a.wellNamed = true ∧ a.filled = true) :
    Agree (Evaluators.standard.initialMemory (as.map text)) (as.foldlM run ∅) := by
  have hfrom : ∀ m : Memory, Agree ((as.map text).foldlM Evaluators.standard.effect m)
      (as.foldlM run m) := by
    induction as with
    | nil => exact fun m => .ok m
    | cons a as ih =>
      rw [List.forall_mem_cons] at has
      intro m
      rw [List.map_cons, List.foldlM_cons, List.foldlM_cons]
      exact (agree_effect_text has.1.1 has.1.2 m).bind (ih has.2)
  exact hfrom ∅

end Action

end OmegaCheck
