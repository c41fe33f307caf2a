import OmegaCheck.Proofs.Program.Meaning

/-!
# Exact values

The value of an expression in 64-bit arithmetic is its value in the integers, unless something goes
wrong on the way: a value is out of range, a divisor is zero, or a queue is taken for a number. What
is never evaluated, because the left operand of `&&` or `||` decides, cannot go wrong.
-/

namespace OmegaCheck

section Range

variable {a b n : Int}

def InRange (n : Int) : Prop := Int64.minValue.toInt ≤ n ∧ n ≤ Int64.maxValue.toInt

theorem inRange_iff : InRange n ↔ -9223372036854775808 ≤ n ∧ n ≤ 9223372036854775807 := Iff.rfl

theorem inRange_toInt (v : Int64) : InRange v.toInt := by
  have hlow := v.le_toInt
  have hhigh := v.toInt_lt
  rw [inRange_iff]
  omega

theorem int64?_of_inRange (h : InRange n) : ∃ v, int64? n = some v ∧ n = v.toInt := by
  have hbounds := inRange_iff.mp h
  refine ⟨Int64.ofInt n, if_pos h, (Int64.toInt_ofInt_of_le ?_ ?_).symm⟩
  · omega
  · omega

theorem int64?_of_not_inRange (h : ¬ InRange n) : int64? n = none := if_neg h

/-- Only the quotient of the least number by `-1` is too large. -/
theorem inRange_tdiv_iff (ha : InRange a) :
    InRange (a.tdiv b) ↔ ¬ (a = Int64.minValue.toInt ∧ b = -1) := by
  change InRange (a.tdiv b) ↔ ¬ (a = -9223372036854775808 ∧ b = -1)
  rw [inRange_iff] at ha ⊢
  obtain rfl | rfl | rfl | hb : b = -1 ∨ b = 0 ∨ b = 1 ∨ 2 ≤ b.natAbs := by omega
  · rw [Int.tdiv_neg, Int.tdiv_one]
    omega
  · rw [Int.tdiv_zero]
    omega
  · rw [Int.tdiv_one]
    omega
  · have hhalf : (a.tdiv b).natAbs ≤ a.natAbs / 2 := by
      rw [Int.natAbs_tdiv]
      exact Nat.div_le_div_left hb (by decide)
    omega

end Range

/-- The number that a name stands for; a name without one stands for zero. -/
def Memory.number (m : Memory) (name : String) : Int :=
  match m.get? name with
  | some (.int n) => n.toInt
  | _ => 0

namespace BinOp

/-- The result of an operator in the integers; quotients are rounded toward zero. -/
def exact (op : BinOp) (a b : Int) : Int :=
  match op with
  | or => if a ≠ 0 ∨ b ≠ 0 then 1 else 0
  | and => if a ≠ 0 ∧ b ≠ 0 then 1 else 0
  | eq => if a = b then 1 else 0
  | ne => if a ≠ b then 1 else 0
  | lt => if a < b then 1 else 0
  | le => if a ≤ b then 1 else 0
  | gt => if a > b then 1 else 0
  | ge => if a ≥ b then 1 else 0
  | add => a + b
  | sub => a - b
  | mul => a * b
  | div => a.tdiv b
  | mod => a.tmod b

/-- Whether the right operand is skipped after the left one came to `a`. -/
def skips (op : BinOp) (a : Int) : Bool :=
  match op with
  | and => a = 0
  | or => a ≠ 0
  | _ => false

end BinOp

namespace Expr

variable (m : Memory)

/-- The value in the integers, without regard to range. -/
def value : Expr → Int
  | int n => n.toInt
  | bool b => if b then 1 else 0
  | var name => m.number name
  | neg e => -e.value
  | not e => if e.value = 0 then 1 else 0
  | binary op lhs rhs => op.exact lhs.value rhs.value

/-- The subexpressions that are evaluated, operands before what is made of them. -/
def visited : Expr → List Expr
  | neg e => e.visited ++ [neg e]
  | not e => e.visited ++ [not e]
  | binary op lhs rhs =>
    lhs.visited ++ ((if op.skips (lhs.value m) then [] else rhs.visited) ++ [binary op lhs rhs])
  | e => [e]

/-- What can go wrong at an expression itself, beside what went wrong at its operands. -/
inductive Flaw : Expr → EvalError → Prop
  | range {e : Expr} (h : ¬ InRange (e.value m)) : Flaw e (.overflow e)
  | zeroDivisor {op : BinOp} {lhs rhs : Expr} (hop : op = .div ∨ op = .mod) (h : rhs.value m = 0) :
      Flaw (binary op lhs rhs) (.divisionByZero (binary op lhs rhs))
  /-- The remainder of the least number by `-1` is zero, but the quotient is out of range. -/
  | quotient {lhs rhs : Expr} (hlhs : lhs.value m = Int64.minValue.toInt) (hrhs : rhs.value m = -1) :
      Flaw (binary .mod lhs rhs) (.overflow (binary .mod lhs rhs))
  | queue {name : String} {messages : List Int64} (h : m.get? name = some (.queue messages)) :
      Flaw (var name) (.queueAsInteger name)

def Flawless (e : Expr) : Prop := ∀ err, ¬ e.Flaw m err

/-- How evaluating the expressions `xs` one after the other ends: with the exact value `n` of the last
of them, or with the error of the first one that has a flaw. -/
inductive Ends (xs : List Expr) (n : Int) : Except EvalError Int64 → Prop
  | value {v : Int64} (hflawless : ∀ x ∈ xs, x.Flawless m) (hv : n = v.toInt) : Ends xs n (.ok v)
  | flaw {before after : List Expr} {x : Expr} {err : EvalError} (hxs : xs = before ++ x :: after)
      (hflawless : ∀ y ∈ before, y.Flawless m) (hflaw : x.Flaw m err) : Ends xs n (.error err)

variable {m} {xs ys : List Expr} {n k : Int} {r : Except EvalError Int64}

theorem Ends.bind {f : Int64 → Except EvalError Int64} (h : Ends m xs n r)
    (hf : ∀ v, n = v.toInt → Ends m ys k (f v)) : Ends m (xs ++ ys) k (r >>= f) := by
  cases h with
  | @value v hxs hv =>
    have hrest := hf v hv
    change Ends m (xs ++ ys) k (f v)
    generalize f v = r at hrest ⊢
    cases hrest with
    | value hys hk => exact .value (List.forall_mem_append.mpr ⟨hxs, hys⟩) hk
    | flaw hys hbefore hflaw =>
      rw [hys, ← List.append_assoc]
      exact .flaw rfl (List.forall_mem_append.mpr ⟨hxs, hbefore⟩) hflaw
  | flaw hxs hbefore hflaw =>
    rw [hxs, List.append_assoc]
    exact .flaw rfl hbefore hflaw

section LastStep

variable {e lhs rhs : Expr} {op : BinOp} {a b v : Int64}

theorem ends_value (h : e.Flawless m) (hv : n = v.toInt) : Ends m [e] n (.ok v) :=
  .value (List.forall_mem_singleton.mpr h) hv

theorem ends_flaw {err : EvalError} (h : e.Flaw m err) : Ends m [e] n (.error err) :=
  .flaw (rfl : [e] = [] ++ e :: []) (fun _ hy => absurd hy List.not_mem_nil) h

theorem ends_checked (hn : e.value m = n) (h : InRange n → e.Flawless m) :
    Ends m [e] n (match int64? n with
      | some v => .ok v
      | none => .error (.overflow e)) := by
  by_cases hrange : InRange n
  · obtain ⟨v, hsome, hv⟩ := int64?_of_inRange hrange
    rw [hsome]
    exact ends_value (h hrange) hv
  · rw [int64?_of_not_inRange hrange]
    exact ends_flaw (.range (hn ▸ hrange))

theorem flawless_of_inRange (h : InRange (e.value m)) (hvar : ∀ name, e ≠ var name)
    (hbinary : ∀ op lhs rhs, e ≠ binary op lhs rhs) : e.Flawless m := by
  intro err hflaw
  cases hflaw with
  | range hrange => exact hrange h
  | zeroDivisor | quotient => exact hbinary _ _ _ rfl
  | queue => exact hvar _ rfl

theorem ends_readInt (m : Memory) (name : String) :
    Ends m [var name] ((var name).value m) (m.readInt name) := by
  have hnumber : ∀ v : Int64, (∀ messages, m.get? name ≠ some (.queue messages)) →
      m.number name = v.toInt → Ends m [var name] (m.number name) (.ok v) := by
    intro v hqueue hv
    refine ends_value (fun err hflaw => ?_) hv
    cases hflaw with
    | range h =>
      apply h
      rw [value, hv]
      exact inRange_toInt v
    | queue h => exact hqueue _ h
  rw [Memory.readInt, value]
  split
  · next hname => exact hnumber 0 (by simp [hname]) (by simp [Memory.number, hname])
  · next v hname => exact hnumber v (by simp [hname]) (by simp [Memory.number, hname])
  · next messages hname => exact ends_flaw (.queue hname)

theorem flawless_binary (hdiv : op ≠ .div) (hmod : op ≠ .mod)
    (h : InRange (op.exact (lhs.value m) (rhs.value m))) : (binary op lhs rhs).Flawless m := by
  intro err hflaw
  cases hflaw with
  | range hrange => exact hrange h
  | zeroDivisor hop => exact hop.elim hdiv hmod
  | quotient => exact hmod rfl

theorem inRange_ite (p : Prop) [Decidable p] : InRange (if p then 1 else 0) := by
  rw [inRange_iff]
  split <;> decide

theorem toInt_truth (p : Prop) [Decidable p] : (truth (decide p)).toInt = if p then 1 else 0 := by
  by_cases h : p <;> simp [truth, h]

theorem ends_truth {p : Prop} [Decidable p] (hn : op.exact a.toInt b.toInt = if p then 1 else 0)
    (hlhs : lhs.value m = a.toInt) (hrhs : rhs.value m = b.toInt) (hdiv : op ≠ .div)
    (hmod : op ≠ .mod) :
    Ends m [binary op lhs rhs] (op.exact a.toInt b.toInt) (.ok (truth (decide p))) := by
  refine ends_value (flawless_binary hdiv hmod ?_) ?_
  · rw [hlhs, hrhs, hn]
    exact inRange_ite p
  · rw [hn, toInt_truth]

theorem toInt_eq_zero_iff : a.toInt = 0 ↔ a = 0 := by
  rw [← Int64.toInt_zero, Int64.toInt_inj]

theorem ends_combine (hlhs : lhs.value m = a.toInt) (hrhs : rhs.value m = b.toInt)
    (hskips : op.skips a.toInt = false) :
    Ends m [binary op lhs rhs] (op.exact a.toInt b.toInt) (combine (binary op lhs rhs) op a b) := by
  have hvalue : (binary op lhs rhs).value m = op.exact a.toInt b.toInt := by
    rw [value, hlhs, hrhs]
  have hzero_iff : rhs.value m = 0 ↔ b = 0 := by rw [hrhs, toInt_eq_zero_iff]
  cases op with
  | or | and =>
    apply ends_truth _ hlhs hrhs (by decide) (by decide)
    simp only [BinOp.skips, decide_eq_false_iff_not, Decidable.not_not] at hskips
    simp [BinOp.exact, hskips, toInt_eq_zero_iff]
  | eq | ne =>
    apply ends_truth _ hlhs hrhs (by decide) (by decide)
    simp only [BinOp.exact, ne_eq, Int64.toInt_inj]
  | lt | le | gt | ge => exact ends_truth rfl hlhs hrhs (by decide) (by decide)
  | add | sub | mul =>
    refine ends_checked hvalue fun hrange => flawless_binary (by decide) (by decide) ?_
    rwa [hlhs, hrhs]
  | div =>
    rw [combine]
    split
    · next hzero => exact ends_flaw (.zeroDivisor (.inl rfl) (hzero_iff.mpr hzero))
    · next hzero =>
      refine ends_checked hvalue fun hrange err hflaw => ?_
      cases hflaw with
      | range h => exact h (hvalue ▸ hrange)
      | zeroDivisor _ h => exact hzero (hzero_iff.mp h)
  | mod =>
    have hquotient : InRange (a.toInt.tdiv b.toInt) ↔
        ¬ (lhs.value m = Int64.minValue.toInt ∧ rhs.value m = -1) := by
      rw [hlhs, hrhs]
      exact inRange_tdiv_iff (inRange_toInt a)
    rw [combine]
    split
    · next hzero => exact ends_flaw (.zeroDivisor (.inr rfl) (hzero_iff.mpr hzero))
    · next hzero =>
      by_cases hrange : InRange (a.toInt.tdiv b.toInt)
      · obtain ⟨_, hsome, _⟩ := int64?_of_inRange hrange
        simp only [hsome, Option.isNone_some, Bool.false_eq_true, if_false]
        refine ends_checked hvalue fun hrange' err hflaw => ?_
        cases hflaw with
        | range h => exact h (hvalue ▸ hrange')
        | zeroDivisor _ h => exact hzero (hzero_iff.mp h)
        | quotient hl hr => exact hquotient.mp hrange ⟨hl, hr⟩
      · obtain ⟨hl, hr⟩ := Decidable.not_not.mp (mt hquotient.mpr hrange)
        simp only [int64?_of_not_inRange hrange, Option.isNone_none, if_true]
        exact ends_flaw (.quotient hl hr)

end LastStep

theorem skips_toInt (op : BinOp) (a : Int64) : op.skips a.toInt = (shortcut? op a).isSome := by
  cases op with
  | and | or => by_cases ha : a = 0 <;> simp [BinOp.skips, shortcut?, toInt_eq_zero_iff, ha]
  | _ => rfl

/-- What the left operand decides does not depend on the right one. -/
theorem exact_of_shortcut {op : BinOp} {a v : Int64} (h : shortcut? op a = some v) (b : Int) :
    op.exact a.toInt b = v.toInt ∧ op ≠ .div ∧ op ≠ .mod := by
  cases op with
  | and =>
    by_cases ha : a = 0
    · obtain rfl : 0 = v := by simpa [shortcut?, ha] using h
      simp [BinOp.exact, ha]
    · simp [shortcut?, ha] at h
  | or =>
    by_cases ha : a = 0
    · simp [shortcut?, ha] at h
    · obtain rfl : 1 = v := by simpa [shortcut?, ha] using h
      simp [BinOp.exact, toInt_eq_zero_iff, ha]
  | _ => cases h

theorem ends_eval (m : Memory) (e : Expr) : Ends m (e.visited m) (e.value m) (e.eval m) := by
  induction e with
  | int n => exact ends_value (flawless_of_inRange (inRange_toInt n) (by simp) (by simp)) rfl
  | bool b =>
    have hvalue : (bool b).value m = (truth b).toInt := by cases b <;> rfl
    refine ends_value (flawless_of_inRange ?_ (by simp) (by simp)) hvalue
    rw [hvalue]
    exact inRange_toInt _
  | var name => exact ends_readInt m name
  | neg e ih =>
    refine ih.bind fun v hv => ?_
    have hvalue : (neg e).value m = -v.toInt := by rw [value, hv]
    rw [hvalue]
    refine ends_checked hvalue fun hrange => flawless_of_inRange ?_ (by simp) (by simp)
    rwa [hvalue]
  | not e ih =>
    refine ih.bind fun v hv => ends_value (flawless_of_inRange ?_ (by simp) (by simp)) ?_
    · exact inRange_ite _
    · rw [value, hv, toInt_truth]
      simp only [toInt_eq_zero_iff]
  | binary op lhs rhs ihl ihr =>
    refine ihl.bind fun a ha => ?_
    rw [ha, skips_toInt, value, ha]
    cases hshortcut : shortcut? op a with
    | some v =>
      obtain ⟨hv, hdiv, hmod⟩ := exact_of_shortcut hshortcut (rhs.value m)
      refine ends_value (flawless_binary hdiv hmod ?_) hv
      rw [ha, hv]
      exact inRange_toInt v
    | none =>
      refine ihr.bind fun b hb => ?_
      rw [hb]
      apply ends_combine ha hb
      rw [skips_toInt, hshortcut]
      rfl

/-- In exact arithmetic the expression comes to `v`, and nothing goes wrong on the way. -/
def ComesTo (m : Memory) (e : Expr) (v : Int64) : Prop :=
  (∀ x ∈ e.visited m, x.Flawless m) ∧ e.value m = v.toInt

/-- The error of the first subexpression, in the order of evaluation, that has a flaw. -/
def FailsFirstWith (m : Memory) (e : Expr) (err : EvalError) : Prop :=
  ∃ before x after, e.visited m = before ++ x :: after ∧ (∀ y ∈ before, y.Flawless m) ∧ x.Flaw m err

theorem Flaw.isFailure {e : Expr} {err : EvalError} (h : e.Flaw m err) : err.isFailure = true := by
  cases h <;> rfl

theorem comesTo_of_eval {e : Expr} {v : Int64} (h : e.eval m = .ok v) : e.ComesTo m v := by
  have hends := e.ends_eval m
  rw [h] at hends
  cases hends with
  | value hflawless hv => exact ⟨hflawless, hv⟩

theorem failsFirstWith_of_eval {e : Expr} {err : EvalError} (h : e.eval m = .error err) :
    e.FailsFirstWith m err := by
  have hends := e.ends_eval m
  rw [h] at hends
  cases hends with
  | flaw hxs hbefore hflaw => exact ⟨_, _, _, hxs, hbefore, hflaw⟩

theorem eval_of_comesTo {e : Expr} {v : Int64} (h : e.ComesTo m v) : e.eval m = .ok v := by
  cases heval : e.eval m with
  | ok w =>
    have hw : w.toInt = v.toInt := (comesTo_of_eval heval).2.symm.trans h.2
    rw [Int64.toInt_inj.mp hw]
  | error err =>
    obtain ⟨before, x, after, hxs, _, hflaw⟩ := failsFirstWith_of_eval heval
    exact absurd hflaw (h.1 x (by simp [hxs]) err)

/-- Evaluation is exact, or fails at the first flaw that it meets. -/
theorem eval_exact_or_fails (m : Memory) (e : Expr) :
    (∀ v, e.eval m = .ok v ↔ e.ComesTo m v) ∧
      ((¬ ∃ v, e.ComesTo m v) →
        ∃ err, e.eval m = .error err ∧ err.isFailure = true ∧ e.FailsFirstWith m err) := by
  refine ⟨fun v => ⟨comesTo_of_eval, eval_of_comesTo⟩, fun hnone => ?_⟩
  cases heval : e.eval m with
  | ok v => exact absurd ⟨v, comesTo_of_eval heval⟩ hnone
  | error err =>
    obtain ⟨before, x, after, hxs, hbefore, hflaw⟩ := failsFirstWith_of_eval heval
    exact ⟨err, rfl, hflaw.isFailure, before, x, after, hxs, hbefore, hflaw⟩

-- The division is not met while its divisor is zero.
example : (binary .and (var "x") (binary .div (int 1) (var "x"))).visited ∅ =
    [var "x", binary .and (var "x") (binary .div (int 1) (var "x"))] := rfl

end Expr

end OmegaCheck
