import OmegaCheck.Program.Parser

/-!
# Reading level by level

The operators bind in levels. An operand of one level is a chain of operands of the next tighter
level, joined by the operators of its own level, to the left. Reading by climbing comes to the same:
what climbs to a level is what the chains of that level and of the tighter ones take one after the
other, since no chain leaves an operator that a tighter one could have taken.
-/

namespace OmegaCheck

/-- The number of levels of binary operators. -/
def Parser.levels : Nat := 5

theorem BinOp.level_le (op : BinOp) : op.level ≤ Parser.levels := by
  cases op <;> decide

namespace Parser

mutual
/-- An operand that no operator of a level looser than the tightest `k` splits. -/
def operand (k : Nat) (ts : List Token) : Reading Expr ts.length :=
  match k with
  | 0 => unary ts
  | k + 1 => do
    let first ← operand k ts
    let whole ← chain k first.value first.rest
    return whole.widen (Nat.succ_le_of_lt first.fewer)
termination_by (ts.length, k + 1)
decreasing_by
  · decreasing_tactic
  · have := first.fewer; simp only [Prod.lex_def]; omega

/-- The operators of the level next to the tightest `k`, applied to `lhs` as far as they go. -/
def chain (k : Nat) (lhs : Expr) (ts : List Token) : Reading Expr (ts.length + 1) :=
  match ts with
  | .op o :: rest =>
    if o.level + k = levels then do
      let rhs ← operand k rest
      let whole ← chain k (.binary o lhs rhs.value) rhs.rest
      return whole.widen (by have := rhs.fewer; simp only [List.length_cons]; omega)
    else .ok ⟨lhs, .op o :: rest, Nat.lt_succ_self _⟩
  | ts => .ok ⟨lhs, ts, Nat.lt_succ_self _⟩
termination_by (ts.length, 0)
decreasing_by
  · simp only [Prod.lex_def, List.length_cons]; omega
  · have := rhs.fewer; simp only [Prod.lex_def, List.length_cons]; omega
end

/-- A reader whose result does not count the tokens that are left. -/
abbrev Scanner (α : Type) : Type := List Token → Except Refusal (α × List Token)

def outcome {α : Type} {n : Nat} (r : Reading α n) : Except Refusal (α × List Token) :=
  r.map fun p => (p.value, p.rest)

/-- One reading after the other. -/
def followed {α β : Type} (r : Except Refusal (α × List Token)) (S : α → Scanner β) :
    Except Refusal (β × List Token) :=
  r.bind fun x => S x.1 x.2

section Outcomes

variable {α β γ : Type} {m n : Nat}

theorem outcome_injective {r r' : Reading α n} (h : outcome r = outcome r') : r = r' := by
  cases r with
  | error e =>
    cases r' with
    | error e' => cases h; rfl
    | ok p' => cases h
  | ok p =>
    cases r' with
    | error e' => cases h
    | ok p' =>
      obtain ⟨value, rest, _⟩ := p
      obtain ⟨value', rest', _⟩ := p'
      cases h
      rfl

theorem length_lt_of_outcome {r : Reading α n} {v : α} {rest : List Token}
    (h : outcome r = .ok (v, rest)) : rest.length < n := by
  cases r with
  | error e => cases h
  | ok p =>
    cases h
    exact p.fewer

theorem outcome_bind {r : Reading α m} {f : Parsed α m → Reading β n} {S : α → Scanner β}
    (h : ∀ p, outcome (f p) = S p.value p.rest) :
    outcome (r >>= f) = followed (outcome r) S := by
  cases r with
  | error e => rfl
  | ok p => exact h p

theorem outcome_widen {r : Reading α m} {h : Parsed α m → m ≤ n} :
    outcome (r >>= fun p => pure (p.widen (h p))) = outcome r := by
  cases r <;> rfl

theorem followed_assoc (r : Except Refusal (α × List Token)) (S : α → Scanner β)
    (T : β → Scanner γ) :
    followed (followed r S) T = followed r fun v mid => followed (S v mid) T := by
  cases r <;> rfl

theorem followed_eq_ok_iff {r : Except Refusal (α × List Token)} {S : α → Scanner β}
    {x : β × List Token} :
    followed r S = .ok x ↔ ∃ v mid, r = .ok (v, mid) ∧ S v mid = .ok x := by
  cases r with
  | error e => simp [followed, Except.bind]
  | ok y =>
    constructor
    · intro h
      exact ⟨y.1, y.2, rfl, h⟩
    · rintro ⟨v, mid, ⟨⟩, h⟩
      exact h

theorem followed_congr {r : Except Refusal (α × List Token)} {S T : α → Scanner β}
    (h : ∀ v mid, r = .ok (v, mid) → S v mid = T v mid) : followed r S = followed r T := by
  cases r with
  | error e => rfl
  | ok x => exact h x.1 x.2 rfl

end Outcomes

section Steps

variable {k least : Nat} {lhs : Expr} {o : BinOp} {ts : List Token}

theorem outcome_operand_succ :
    outcome (operand (k + 1) ts) =
      followed (outcome (operand k ts)) fun v mid => outcome (chain k v mid) := by
  rw [operand]
  exact outcome_bind fun p => outcome_widen

theorem outcome_chain_step (ho : o.level + k = levels) :
    outcome (chain k lhs (.op o :: ts)) =
      followed (outcome (operand k ts)) fun v mid => outcome (chain k (.binary o lhs v) mid) := by
  rw [chain, if_pos ho]
  exact outcome_bind fun p => outcome_widen

theorem chain_of_stop (h : ∀ o, ts.head? = some (.op o) → o.level + k ≠ levels) :
    chain k lhs ts = .ok ⟨lhs, ts, Nat.lt_succ_self _⟩ := by
  rw [chain.eq_def]
  split
  · next o rest => rw [if_neg (h o rfl)]
  · rfl

theorem outcome_binary :
    outcome (binary least ts) =
      followed (outcome (unary ts)) fun v mid => outcome (climb least v mid) := by
  rw [binary]
  exact outcome_bind fun p => outcome_widen

theorem outcome_climb_step (ho : least ≤ o.level) :
    outcome (climb least lhs (.op o :: ts)) =
      followed (outcome (binary (o.level + 1) ts)) fun v mid =>
        outcome (climb least (.binary o lhs v) mid) := by
  rw [climb, if_neg (Nat.not_lt.mpr ho)]
  exact outcome_bind fun p => outcome_widen

theorem outcome_climb_stop (h : ∀ o, ts.head? = some (.op o) → o.level < least) :
    outcome (climb least lhs ts) = .ok (lhs, ts) := by
  rw [climb.eq_def]
  split
  · next o rest => rw [if_pos (h o rfl)]; rfl
  · rfl

end Steps

/-- No operator of the tightest `k` levels stands in front. -/
def NoOperator (k : Nat) (ts : List Token) : Prop :=
  ∀ o, ts.head? = some (.op o) → o.level + k ≤ levels

section Operators

variable {k : Nat} {lhs v : Expr} {ts rest : List Token}

theorem noOperator_zero (rest : List Token) : NoOperator 0 rest := by
  intro o _
  exact o.level_le

theorem NoOperator.of_succ (h : NoOperator (k + 1) rest) : NoOperator k rest := by
  intro o ho
  have := h o ho
  omega

theorem NoOperator.chain_eq (h : NoOperator (k + 1) ts) :
    chain k lhs ts = .ok ⟨lhs, ts, Nat.lt_succ_self _⟩ := by
  refine chain_of_stop fun o ho => ?_
  have := h o ho
  omega

theorem noOperator_of_chain
    (hoperand : ∀ ts v rest, outcome (operand k ts) = .ok (v, rest) → NoOperator k rest)
    (hts : NoOperator k ts) (h : outcome (chain k lhs ts) = .ok (v, rest)) :
    NoOperator (k + 1) rest := by
  induction hn : ts.length using Nat.strongRecOn generalizing lhs ts with
  | ind n ih =>
    subst hn
    by_cases hop : ∃ o, ts.head? = some (.op o) ∧ o.level + k = levels
    · obtain ⟨o, hhead, ho⟩ := hop
      obtain ⟨us, rfl⟩ := List.head?_eq_some_iff.mp hhead
      rw [outcome_chain_step ho] at h
      obtain ⟨u, mid, hright, hmore⟩ := followed_eq_ok_iff.mp h
      have hlt := length_lt_of_outcome hright
      exact ih _ (Nat.lt_succ_of_lt hlt) (hoperand _ _ _ hright) hmore rfl
    · have hstop : ∀ o, ts.head? = some (.op o) → o.level + k ≠ levels :=
        fun o hhead ho => hop ⟨o, hhead, ho⟩
      rw [chain_of_stop hstop] at h
      cases h
      intro o hhead
      have := hts o hhead
      have := hstop o hhead
      omega

/-- No operator is left that could have been taken. -/
theorem noOperator_of_operand (h : outcome (operand k ts) = .ok (v, rest)) :
    NoOperator k rest := by
  induction k generalizing ts v rest with
  | zero => exact noOperator_zero rest
  | succ k ih =>
    rw [outcome_operand_succ] at h
    obtain ⟨u, mid, hfirst, hmore⟩ := followed_eq_ok_iff.mp h
    exact noOperator_of_chain (fun _ _ _ => ih) (ih hfirst) hmore

end Operators

/-- The chains of the tightest `k` levels, one after the other. -/
def chains : Nat → Expr → Scanner Expr
  | 0, v, ts => .ok (v, ts)
  | k + 1, v, ts => followed (chains k v ts) fun v mid => outcome (chain k v mid)

section Climbing

variable {j k : Nat} {lhs v : Expr} {o : BinOp} {ts : List Token}

theorem outcome_operand : outcome (operand k ts) = followed (outcome (unary ts)) (chains k) := by
  induction k with
  | zero =>
    rw [operand]
    cases outcome (unary ts) <;> rfl
  | succ k ih => rw [outcome_operand_succ, ih, followed_assoc]; rfl

theorem chains_of_stop (h : NoOperator k ts) : chains k v ts = .ok (v, ts) := by
  induction k with
  | zero => rfl
  | succ k ih =>
    rw [chains, ih h.of_succ]
    exact congrArg outcome h.chain_eq

/-- An operator is taken by the chain of its level. The tighter chains take nothing, neither in
front of the operator nor behind its right operand. -/
theorem chains_step (ho : o.level + j = levels) (hjk : j < k) :
    chains k lhs (.op o :: ts) =
      followed (outcome (operand j ts)) fun v mid => chains k (.binary o lhs v) mid := by
  induction hjk with
  | refl =>
    have hfront : NoOperator j (.op o :: ts) := by
      rintro _ ⟨⟩
      exact Nat.le_of_eq ho
    rw [chains, chains_of_stop hfront]
    refine (outcome_chain_step ho).trans (followed_congr fun v mid hright => ?_)
    rw [chains, chains_of_stop (noOperator_of_operand hright)]
    rfl
  | step _ ih =>
    rw [chains, ih, followed_assoc]
    rfl

theorem outcome_climb (hk : k ≤ levels) :
    outcome (climb (levels + 1 - k) lhs ts) = chains k lhs ts := by
  obtain ⟨n, hn⟩ : ∃ n, ts.length = n := ⟨_, rfl⟩
  induction n using Nat.strongRecOn generalizing k lhs ts with
  | ind n ih =>
    subst hn
    by_cases hop : ∃ o, ts.head? = some (.op o) ∧ levels < o.level + k
    · obtain ⟨o, hhead, hlevel⟩ := hop
      obtain ⟨us, rfl⟩ := List.head?_eq_some_iff.mp hhead
      obtain ⟨j, ho⟩ : ∃ j, o.level + j = levels := ⟨_, Nat.add_sub_cancel' o.level_le⟩
      have hright : outcome (binary (o.level + 1) us) = outcome (operand j us) := by
        rw [outcome_binary, outcome_operand]
        refine followed_congr fun v mid hread => ?_
        have hlt := length_lt_of_outcome hread
        have hleast : o.level + 1 = levels + 1 - j := by omega
        rw [hleast]
        exact ih _ (Nat.lt_succ_of_lt hlt) (by omega) rfl
      rw [outcome_climb_step (by omega), chains_step ho (by omega), hright]
      refine followed_congr fun v mid hread => ?_
      have hlt := length_lt_of_outcome hread
      exact ih _ (Nat.lt_succ_of_lt hlt) hk rfl
    · have hstop : NoOperator k ts := by
        intro o hhead
        exact Nat.le_of_not_lt fun hlt => hop ⟨o, hhead, hlt⟩
      rw [chains_of_stop hstop]
      refine outcome_climb_stop fun o hhead => ?_
      have := hstop o hhead
      omega

/-- Climbing reads what is read level by level. -/
theorem expr_eq_operand (ts : List Token) : expr ts = operand levels ts := by
  apply outcome_injective
  rw [expr, outcome_binary, outcome_operand]
  exact followed_congr fun v mid _ => outcome_climb (k := levels) (Nat.le_refl _)

end Climbing

/-- Induction along the readers, level by level. -/
theorem operand_induct {P : Nat → List Token → Prop} {Q : Nat → Expr → List Token → Prop}
    {U A : List Token → Prop}
    (tightest : ∀ ts, U ts → P 0 ts)
    (level : ∀ k ts, P k ts → (∀ v mid, mid.length < ts.length → Q k v mid) → P (k + 1) ts)
    (step : ∀ k lhs o ts, o.level + k = levels → P k ts →
      (∀ v mid, mid.length < ts.length → Q k (.binary o lhs v) mid) → Q k lhs (.op o :: ts))
    (stop : ∀ k lhs ts, (∀ o, ts.head? = some (.op o) → o.level + k ≠ levels) → Q k lhs ts)
    (bang : ∀ ts, U ts → U (.bang :: ts))
    (negative : ∀ n ts, n ≤ signBound → U (.op .sub :: .int n :: ts))
    (negativeRange : ∀ n ts, ¬ n ≤ signBound → U (.op .sub :: .int n :: ts))
    (minus : ∀ ts, (∀ n rest, ts ≠ .int n :: rest) → U ts → U (.op .sub :: ts))
    (primary : ∀ ts, (∀ rest, ts ≠ .bang :: rest) → (∀ rest, ts ≠ .op .sub :: rest) → A ts → U ts)
    (number : ∀ n ts, n < signBound → A (.int n :: ts))
    (numberRange : ∀ n ts, ¬ n < signBound → A (.int n :: ts))
    (wordTrue : ∀ ts, A (.wordTrue :: ts))
    (wordFalse : ∀ ts, A (.wordFalse :: ts))
    (var : ∀ name ts, A (.ident name :: ts))
    (paren : ∀ ts, P levels ts → A (.leftParen :: ts))
    (refused : ∀ ts, (∀ n rest, ts ≠ .int n :: rest) → (∀ rest, ts ≠ .wordTrue :: rest) →
      (∀ rest, ts ≠ .wordFalse :: rest) → (∀ name rest, ts ≠ .ident name :: rest) →
      (∀ rest, ts ≠ .leftParen :: rest) → A ts) :
    (∀ k ts, P k ts) ∧ (∀ k lhs ts, Q k lhs ts) ∧ (∀ ts, U ts) ∧ ∀ ts, A ts := by
  have hall : ∀ ts, (∀ k, P k ts) ∧ (∀ k lhs, Q k lhs ts) ∧ U ts ∧ A ts := by
    intro ts
    obtain ⟨n, hn⟩ : ∃ n, ts.length = n := ⟨_, rfl⟩
    induction n using Nat.strongRecOn generalizing ts with
    | ind n ih =>
      subst hn
      have hA : A ts := by
        fun_cases Parser.primary ts with
        | case1 n rest hn => exact number n rest hn
        | case2 n rest hn => exact numberRange n rest hn
        | case3 rest => exact wordTrue rest
        | case4 rest => exact wordFalse rest
        | case5 name rest => exact var name rest
        | case6 rest => exact paren rest ((ih _ (Nat.lt_succ_self _) rest rfl).1 levels)
        | case7 ts hint htrue hfalse hident hparen =>
          exact refused ts hint htrue hfalse hident hparen
      have hU : U ts := by
        fun_cases Parser.unary ts with
        | case1 rest => exact bang rest (ih _ (Nat.lt_succ_self _) rest rfl).2.2.1
        | case2 n rest hn => exact negative n rest hn
        | case3 n rest hn => exact negativeRange n rest hn
        | case4 rest hint => exact minus rest hint (ih _ (Nat.lt_succ_self _) rest rfl).2.2.1
        | case5 ts hbang hliteral hminus => exact primary ts hbang hminus hA
      have hQ : ∀ k lhs, Q k lhs ts := by
        intro k lhs
        by_cases hop : ∃ o, ts.head? = some (.op o) ∧ o.level + k = levels
        · obtain ⟨o, hhead, ho⟩ := hop
          obtain ⟨us, rfl⟩ := List.head?_eq_some_iff.mp hhead
          refine step k lhs o us ho ((ih _ (Nat.lt_succ_self _) us rfl).1 k) fun v mid hlt => ?_
          exact (ih _ (Nat.lt_succ_of_lt hlt) mid rfl).2.1 k _
        · exact stop k lhs ts fun o hhead ho => hop ⟨o, hhead, ho⟩
      have hP : ∀ k, P k ts := by
        intro k
        induction k with
        | zero => exact tightest ts hU
        | succ k ihk => exact level k ts ihk fun v mid hlt => (ih _ hlt mid rfl).2.1 k v
      exact ⟨hP, hQ, hU, hA⟩
  exact ⟨fun k ts => (hall ts).1 k, fun k lhs ts => (hall ts).2.1 k lhs, fun ts => (hall ts).2.2.1,
    fun ts => (hall ts).2.2.2⟩

end Parser

end OmegaCheck
