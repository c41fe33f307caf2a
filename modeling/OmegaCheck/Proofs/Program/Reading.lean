import OmegaCheck.Proofs.Program.Levels
import OmegaCheck.Proofs.Program.Printing

/-!
# Reading printed programs

Reading the tokens of a printed program gives the program back up to a normal form: a minus sign in
front of a literal belongs to the literal, and sequences are nested to the left.
-/

namespace OmegaCheck

namespace Parser

variable {α : Type} {n : Nat}

/-- The reading ends with this value and these tokens left over. -/
def Yields (r : Reading α n) (value : α) (rest : List Token) : Prop :=
  ∃ h : rest.length < n, r = .ok ⟨value, rest, h⟩

theorem bind_of_eq_ok {ε α β : Type} {x : Except ε α} {a : α} (h : x = .ok a)
    (f : α → Except ε β) : (x >>= f) = f a := by
  rw [h]
  rfl

section Expressions

variable {k : Nat} {ts us mid rest : List Token} {e u v : Expr}

theorem yields_expect (t : Token) (rest : List Token) : Yields (expect t (t :: rest)) () rest :=
  ⟨Nat.lt_succ_self _, by simp [expect]⟩

theorem yields_operand_succ (hfirst : Yields (operand k ts) u mid)
    (hmore : Yields (chain k u mid) v rest) : Yields (operand (k + 1) ts) v rest := by
  obtain ⟨hlt, hfirst⟩ := hfirst
  obtain ⟨hlt', hmore⟩ := hmore
  refine ⟨by omega, ?_⟩
  rw [operand, bind_of_eq_ok hfirst, bind_of_eq_ok hmore]
  rfl

theorem yields_chain_stop (h : NoOperator (k + 1) rest) : Yields (chain k u rest) u rest :=
  ⟨Nat.lt_succ_self _, h.chain_eq⟩

theorem yields_chain_step {o : BinOp} (ho : o.level + k = levels)
    (hright : Yields (operand k ts) u mid) (hmore : Yields (chain k (.binary o e u) mid) v rest) :
    Yields (chain k e (.op o :: ts)) v rest := by
  obtain ⟨hlt, hright⟩ := hright
  obtain ⟨hlt', hmore⟩ := hmore
  refine ⟨by simp only [List.length_cons]; omega, ?_⟩
  rw [chain, if_pos ho, bind_of_eq_ok hright, bind_of_eq_ok hmore]
  rfl

theorem yields_primary_paren (h : Yields (expr ts) v (.rightParen :: rest)) :
    Yields (primary (.leftParen :: ts)) v rest := by
  obtain ⟨hlt, h⟩ := h
  refine ⟨by simp only [List.length_cons] at hlt ⊢; omega, ?_⟩
  obtain ⟨_, hclose⟩ := yields_expect .rightParen rest
  rw [primary, ← expr, bind_of_eq_ok h, bind_of_eq_ok hclose]
  rfl

theorem yields_unary_bang (h : Yields (unary ts) v rest) :
    Yields (unary (.bang :: ts)) (.not v) rest := by
  obtain ⟨hlt, h⟩ := h
  refine ⟨by simp only [List.length_cons]; omega, ?_⟩
  rw [unary, bind_of_eq_ok h]
  rfl

theorem yields_unary_minus (hint : ∀ n, ts.head? ≠ some (.int n)) (h : Yields (unary ts) v rest) :
    Yields (unary (.op .sub :: ts)) (.neg v) rest := by
  obtain ⟨hlt, h⟩ := h
  refine ⟨by simp only [List.length_cons]; omega, ?_⟩
  rw [unary, bind_of_eq_ok h]
  · rfl
  · rintro n rest rfl
    exact hint n rfl

theorem yields_unary_primary {t : Token} (hbang : t ≠ .bang) (hminus : t ≠ .op .sub)
    (h : Yields (primary (t :: ts)) v rest) : Yields (unary (t :: ts)) v rest := by
  obtain ⟨hlt, h⟩ := h
  refine ⟨hlt, ?_⟩
  rw [unary, h]
  all_goals simp_all

end Expressions

section Operands

variable {k m : Nat} {ts us : List Token} {u v : Expr}

/-- The tokens read as `v`, as an operand of the tightest `k` levels, in front of any tokens that
do not go on with it. -/
def ReadsAs (k : Nat) (ts : List Token) (v : Expr) : Prop :=
  ∀ rest, NoOperator k rest → Yields (operand k (ts ++ rest)) v rest

/-- The tokens read as `v`, and more operators of the level next to the tightest `k` may follow. -/
def BeginsChain (k : Nat) (ts : List Token) (v : Expr) : Prop :=
  ∀ rest w rest', NoOperator k rest → Yields (chain k v rest) w rest' →
    Yields (operand (k + 1) (ts ++ rest)) w rest'

theorem ReadsAs.beginsChain (h : ReadsAs k ts v) : BeginsChain k ts v := by
  intro rest w rest' hrest hmore
  exact yields_operand_succ (h rest hrest) hmore

theorem BeginsChain.readsAs (h : BeginsChain k ts v) : ReadsAs (k + 1) ts v := by
  intro rest hrest
  exact h rest v rest hrest.of_succ (yields_chain_stop hrest)

theorem BeginsChain.binary {o : BinOp} (h : BeginsChain k ts u) (hright : ReadsAs k us v)
    (ho : o.level + k = levels) : BeginsChain k (ts ++ .op o :: us) (.binary o u v) := by
  intro rest w rest' hrest hmore
  rw [List.append_assoc]
  apply h
  · intro o' ho'
    cases ho'
    exact Nat.le_of_eq ho
  · exact yields_chain_step ho (hright rest hrest) hmore

theorem ReadsAs.mono (h : ReadsAs k ts v) (hkm : k ≤ m) : ReadsAs m ts v := by
  induction hkm with
  | refl => exact h
  | step _ ih => exact ih.beginsChain.readsAs

theorem readsAs_zero_iff :
    ReadsAs 0 ts v ↔ ∀ rest, Yields (unary (ts ++ rest)) v rest := by
  constructor
  · intro h rest
    have := h rest (noOperator_zero rest)
    rwa [operand] at this
  · intro h rest _
    rw [operand]
    exact h rest

theorem readsAs_atom {t : Token} (hbang : t ≠ .bang) (hminus : t ≠ .op .sub)
    (h : ∀ rest, primary (t :: rest) = .ok ⟨v, rest, Nat.lt_succ_self _⟩) : ReadsAs 0 [t] v := by
  rw [readsAs_zero_iff]
  intro rest
  exact yields_unary_primary hbang hminus ⟨_, h rest⟩

theorem ReadsAs.yields_expr (h : ReadsAs levels ts v) {rest : List Token}
    (hrest : NoOperator levels rest) : Yields (expr (ts ++ rest)) v rest := by
  rw [expr_eq_operand]
  exact h rest hrest

theorem ReadsAs.paren (h : ReadsAs levels ts v) :
    ReadsAs 0 (.leftParen :: (ts ++ [.rightParen])) v := by
  rw [readsAs_zero_iff]
  intro rest
  rw [List.cons_append, List.append_assoc]
  apply yields_unary_primary (by decide) (by decide)
  apply yields_primary_paren
  apply h.yields_expr
  intro o ho
  cases ho

theorem ReadsAs.bang (h : ReadsAs 0 ts v) : ReadsAs 0 (.bang :: ts) (.not v) := by
  rw [readsAs_zero_iff] at h ⊢
  intro rest
  exact yields_unary_bang (h rest)

theorem ReadsAs.minus {t : Token} (ht : t ∈ ts.head?) (hint : ∀ n, t ≠ .int n)
    (h : ReadsAs 0 ts v) : ReadsAs 0 (.op .sub :: ts) (.neg v) := by
  rw [readsAs_zero_iff] at h ⊢
  intro rest
  apply yields_unary_minus _ (h rest)
  intro n hn
  rw [List.head?_append, ht] at hn
  exact hint n (Option.some.inj hn)

end Operands

end Parser

theorem BinOp.level_pos (op : BinOp) : 0 < op.level := by
  cases op <;> decide

namespace Expr

open OmegaCheck.Parser

/-- The expression that the text of `e` is read as: a minus sign before a literal belongs to it. -/
def norm : Expr → Expr
  | neg (int n) => if 0 ≤ n then int (-n) else neg (int n)
  | neg e => neg e.norm
  | not e => not e.norm
  | binary op lhs rhs => binary op lhs.norm rhs.norm
  | e => e

theorem norm_neg_of_ne {e : Expr} (h : ∀ n, 0 ≤ n → e ≠ int n) : (neg e).norm = neg e.norm := by
  cases e with
  | int n =>
    have hn : ¬ 0 ≤ n := fun hn => h n hn rfl
    simp [norm, hn]
  | _ => rfl

theorem yields_minus_literal {m : Nat} (hm : m ≤ signBound) (rest : List Token) :
    Yields (unary (.op .sub :: .int m :: rest)) (int (Int64.ofInt (-m))) rest := by
  refine ⟨by simp only [List.length_cons]; omega, ?_⟩
  rw [unary, if_pos hm]

theorem yields_literal (n : Int64) (rest : List Token) :
    Yields (unary (literalTokens n.toInt ++ rest)) (int n) rest := by
  have hbound : signBound = 2 ^ 63 := rfl
  have hlow := n.le_toInt
  have hhigh := n.toInt_lt
  cases h : n.toInt with
  | ofNat m =>
    rw [h, Int.ofNat_eq_natCast] at hhigh
    have hm : Int64.ofNat m = n := by
      rw [← Int64.ofInt_eq_ofNat, ← Int.ofNat_eq_natCast, ← h, Int64.ofInt_toInt]
    change Yields (unary (.int m :: rest)) (int n) rest
    apply yields_unary_primary (by simp) (by simp)
    refine ⟨Nat.lt_succ_self _, ?_⟩
    rw [primary, if_pos (by omega), hm]
  | negSucc m =>
    rw [h] at hlow
    have hm : Int64.ofInt (-(m + 1 : Nat)) = n := by
      rw [Int.neg_ofNat_succ, ← h, Int64.ofInt_toInt]
    have hread := yields_minus_literal (m := m + 1) (by omega) rest
    rwa [hm] at hread

theorem level_pos (e : Expr) : 0 < e.level := by
  cases e with
  | binary op lhs rhs => exact BinOp.level_pos op
  | _ => exact Nat.succ_pos _

/-- The text of `e` reads as its normal form: alone if no operator of `e` is outside parentheses,
and as the start of a chain of operators that bind no tighter than those of `e`. -/
structure Reads (e : Expr) : Prop where
  tight : levels < e.level → ReadsAs 0 e.tokens e.norm
  chain : ∀ k, levels ≤ e.level + k → BeginsChain k e.tokens e.norm

theorem Reads.of_tight {e : Expr} (h : ReadsAs 0 e.tokens e.norm) : Reads e :=
  ⟨fun _ => h, fun k _ => (h.mono (Nat.zero_le k)).beginsChain⟩

theorem Reads.readsAs {e : Expr} (h : Reads e) {k : Nat} (hk : levels < e.level + k) :
    ReadsAs k e.tokens e.norm := by
  cases k with
  | zero => exact h.tight hk
  | succ k => exact (h.chain k (by omega)).readsAs

theorem Reads.whole {e : Expr} (h : Reads e) : ReadsAs levels e.tokens e.norm :=
  h.readsAs (by have := e.level_pos; omega)

theorem Reads.paren {e : Expr} (h : Reads e) (k : Nat) :
    ReadsAs k (operandTokens true e.tokens) e.norm :=
  h.whole.paren.mono (Nat.zero_le k)

theorem Reads.operand {e : Expr} (h : Reads e) {k : Nat} {parenthesized : Bool}
    (hk : parenthesized = false → levels < e.level + k) :
    ReadsAs k (operandTokens parenthesized e.tokens) e.norm := by
  cases parenthesized with
  | true => exact h.paren k
  | false => exact h.readsAs (hk rfl)

theorem Reads.leftOperand {e : Expr} (h : Reads e) {k : Nat} {parenthesized : Bool}
    (hk : parenthesized = false → levels ≤ e.level + k) :
    BeginsChain k (operandTokens parenthesized e.tokens) e.norm := by
  cases parenthesized with
  | true => exact (h.paren k).beginsChain
  | false => exact h.chain k (hk rfl)

/-- Only a literal without a sign begins with a number. -/
theorem operandTokens_head {e : Expr} (h : ∀ n, 0 ≤ n → e ≠ int n) :
    ∃ t ∈ (operandTokens (e.level < 6) e.tokens).head?, ∀ n, t ≠ .int n := by
  cases e with
  | int n =>
    have hn : ¬ 0 ≤ n := fun hn => h n hn rfl
    rw [Int64.le_iff_toInt_le, Int64.toInt_zero] at hn
    cases htoInt : n.toInt with
    | ofNat m =>
      rw [htoInt] at hn
      exact absurd (Int.natCast_nonneg m) hn
    | negSucc m =>
      refine ⟨.op .sub, ?_, by simp⟩
      simp [operandTokens, level, tokens, htoInt, literalTokens]
  | bool b => cases b <;> exact ⟨_, rfl, by simp⟩
  | var name => exact ⟨_, rfl, by simp⟩
  | neg e => exact ⟨_, rfl, by simp⟩
  | not e => exact ⟨_, rfl, by simp⟩
  | binary op lhs rhs =>
    have hlevel : op.level < 6 := Nat.lt_succ_of_le op.level_le
    exact ⟨.leftParen, by simp [operandTokens, level, hlevel], by simp⟩

theorem tight_of_bare {e : Expr} (h : decide (e.level < 6) = false) : levels < e.level + 0 := by
  have hlevel := of_decide_eq_false h
  have hlevels : levels = 5 := rfl
  omega

theorem readsAs_neg_literal {n : Int64} (hn : 0 ≤ n) :
    ReadsAs 0 (neg (int n)).tokens (int (-n)) := by
  have hbound : signBound = 2 ^ 63 := rfl
  have hhigh := n.toInt_lt
  rw [Int64.le_iff_toInt_le, Int64.toInt_zero] at hn
  obtain ⟨m, hm⟩ := Int.eq_ofNat_of_zero_le hn
  have hvalue : Int64.ofInt (-m) = -n := by
    rw [← hm, ← Int64.neg_ofInt, Int64.ofInt_toInt]
  have htokens : (neg (int n)).tokens = [.op .sub, .int m] := by
    simp only [tokens, hm]
    rfl
  rw [readsAs_zero_iff, htokens, ← hvalue]
  intro rest
  exact yields_minus_literal (by omega) rest

theorem Reads.neg {e : Expr} (h : Reads e) : Reads (neg e) := by
  apply Reads.of_tight
  by_cases hlit : ∃ n, 0 ≤ n ∧ e = int n
  · obtain ⟨n, hn, rfl⟩ := hlit
    rw [norm, if_pos hn]
    exact readsAs_neg_literal hn
  · have hlit' : ∀ n, 0 ≤ n → e ≠ int n := fun n hn he => hlit ⟨n, hn, he⟩
    rw [norm_neg_of_ne hlit']
    obtain ⟨t, ht, hint⟩ := operandTokens_head hlit'
    apply ReadsAs.minus ht hint
    exact h.operand tight_of_bare

theorem Reads.not {e : Expr} (h : Reads e) : Reads (not e) := by
  apply Reads.of_tight
  apply ReadsAs.bang
  exact h.operand tight_of_bare

theorem Reads.binary (op : BinOp) {lhs rhs : Expr} (hl : Reads lhs) (hr : Reads rhs) :
    Reads (binary op lhs rhs) := by
  have hop := op.level_le
  -- The chain of the level of `op` itself; looser levels take it as one operand.
  have hown : ∀ k, op.level + k = levels →
      BeginsChain k (Expr.binary op lhs rhs).tokens (Expr.binary op lhs rhs).norm := by
    intro k hk
    apply BeginsChain.binary _ _ hk
    · apply hl.leftOperand
      intro hp
      simp only [Bool.or_eq_false_iff, decide_eq_false_iff_not] at hp
      omega
    · apply hr.operand
      intro hp
      simp only [decide_eq_false_iff_not] at hp
      omega
  constructor
  · intro htight
    exact absurd hop (Nat.not_le_of_lt htight)
  · intro k hk
    obtain hk' | hk' : op.level + k = levels ∨ levels - op.level + 1 ≤ k := by
      change levels ≤ op.level + k at hk
      omega
    · exact hown k hk'
    · exact ((hown (levels - op.level) (by omega)).readsAs.mono hk').beginsChain

theorem reads (e : Expr) : Reads e := by
  induction e with
  | int n => exact Reads.of_tight (readsAs_zero_iff.2 (yields_literal n))
  | bool b =>
    apply Reads.of_tight
    cases b with
    | true => exact readsAs_atom (by decide) (by decide) fun rest => by rw [primary]; rfl
    | false => exact readsAs_atom (by decide) (by decide) fun rest => by rw [primary]; rfl
  | var name =>
    apply Reads.of_tight
    exact readsAs_atom (by simp) (by simp) fun rest => by rw [primary]; rfl
  | neg e ih => exact ih.neg
  | not e ih => exact ih.not
  | binary op lhs rhs ihl ihr => exact Reads.binary op ihl ihr

theorem yields_expr (e : Expr) {rest : List Token} (hrest : NoOperator levels rest) :
    Yields (expr (e.tokens ++ rest)) e.norm rest :=
  e.reads.whole.yields_expr hrest

end Expr

namespace Parser

variable {ts rest : List Token}

theorem noOperator_cons {t : Token} (k : Nat) (h : ∀ o, t ≠ .op o) : NoOperator k (t :: rest) := by
  intro o ho
  exact absurd (Option.some.inj ho) (h o)

theorem noOperator_furtherTokens (as : List (String × Expr)) (rest : List Token) :
    NoOperator levels (Action.furtherTokens as ++ .rightBrace :: rest) := by
  cases as with
  | nil => exact noOperator_cons levels (by simp)
  | cons a as => exact noOperator_cons levels (by simp)

section Actions

variable {mid : List Token} {e : Expr} {a : String × Expr} {as : List (String × Expr)}

theorem yields_assignment {name : String} (h : Yields (expr ts) e rest) :
    Yields (assignment (.ident name :: .assign :: ts)) (name, e) rest := by
  obtain ⟨hlt, hvalue⟩ := h
  obtain ⟨_, hsign⟩ := yields_expect .assign ts
  have hname : identifier (.ident name :: .assign :: ts) = .ok ⟨name, _, Nat.lt_succ_self _⟩ := rfl
  refine ⟨by simp only [List.length_cons]; omega, ?_⟩
  rw [assignment, bind_of_eq_ok hname, bind_of_eq_ok hsign, bind_of_eq_ok hvalue]
  rfl

theorem yields_assignments_stop :
    Yields (assignments (.rightBrace :: rest)) [] (.rightBrace :: rest) := by
  refine ⟨Nat.lt_succ_self _, ?_⟩
  rw [assignments]
  simp

theorem yields_assignments_next (hbrace : ts.head? ≠ some .rightBrace)
    (hfirst : Yields (assignment ts) a mid) (hmore : Yields (assignments mid) as rest) :
    Yields (assignments (.semicolon :: ts)) (a :: as) rest := by
  obtain ⟨hlt, hfirst⟩ := hfirst
  obtain ⟨hlt', hmore⟩ := hmore
  refine ⟨by simp only [List.length_cons]; omega, ?_⟩
  rw [assignments, if_neg hbrace, bind_of_eq_ok hfirst, bind_of_eq_ok hmore]
  rfl

theorem yields_action_atomic (hfirst : Yields (assignment ts) a mid)
    (hmore : Yields (assignments mid) as (.rightBrace :: rest)) :
    Yields (action (.wordAtomic :: .leftBrace :: ts)) (.atomic (a :: as)) rest := by
  obtain ⟨hlt, hfirst⟩ := hfirst
  obtain ⟨hlt', hmore⟩ := hmore
  obtain ⟨_, hopen⟩ := yields_expect .leftBrace ts
  obtain ⟨_, hclose⟩ := yields_expect .rightBrace rest
  refine ⟨by simp only [List.length_cons] at *; omega, ?_⟩
  rw [action, bind_of_eq_ok hopen, bind_of_eq_ok hfirst, bind_of_eq_ok hmore, bind_of_eq_ok hclose]
  rfl

theorem yields_action_assign {name : String} (h : Yields (expr ts) e rest) :
    Yields (action (.ident name :: .assign :: ts)) (.assign name e) rest := by
  obtain ⟨hlt, hvalue⟩ := h
  refine ⟨by simp only [List.length_cons]; omega, ?_⟩
  rw [action, bind_of_eq_ok hvalue]
  rfl

theorem yields_action_receive {channel target : String} :
    Yields (action (.ident channel :: .question :: .ident target :: rest))
      (.receive channel target) rest :=
  ⟨by simp only [List.length_cons]; omega, rfl⟩

theorem yields_action_send {channel : String} (h : Yields (expr ts) e rest) :
    Yields (action (.ident channel :: .bang :: ts)) (.send channel e) rest := by
  obtain ⟨hlt, hvalue⟩ := h
  refine ⟨by simp only [List.length_cons]; omega, ?_⟩
  rw [action, bind_of_eq_ok hvalue]
  rfl

end Actions

end Parser

namespace Action

open OmegaCheck.Parser

/-- The action with `f` applied to its expressions. -/
def mapExprs (f : Expr → Expr) : Action → Action
  | skip => skip
  | assign name value => assign name (f value)
  | atomic assignments => atomic (assignments.map fun a => (a.1, f a.2))
  | receive channel target => receive channel target
  | send channel value => send channel (f value)

def norm (a : Action) : Action := a.mapExprs Expr.norm

/-- Atomic blocks contain an assignment; an empty one can be printed but not read. -/
def filled : Action → Bool
  | atomic assignments => !assignments.isEmpty
  | _ => true

theorem yields_assignmentTokens (a : String × Expr) {rest : List Token}
    (hrest : NoOperator levels rest) :
    Yields (assignment (assignmentTokens a ++ rest)) (a.1, a.2.norm) rest :=
  yields_assignment (a.2.yields_expr hrest)

theorem yields_furtherTokens (as : List (String × Expr)) (rest : List Token) :
    Yields (assignments (furtherTokens as ++ .rightBrace :: rest))
      (as.map fun a => (a.1, a.2.norm)) (.rightBrace :: rest) := by
  induction as with
  | nil => exact yields_assignments_stop
  | cons a as ih =>
    rw [furtherTokens, List.cons_append, List.append_assoc]
    refine yields_assignments_next (by simp [assignmentTokens]) ?_ ih
    exact yields_assignmentTokens a (noOperator_furtherTokens as rest)

theorem yields_action (a : Action) (ha : a.filled = true) {rest : List Token}
    (hrest : NoOperator levels rest) : Yields (action (a.tokens ++ rest)) a.norm rest := by
  cases a with
  | skip => exact ⟨Nat.lt_succ_self _, rfl⟩
  | assign name value => exact yields_action_assign (value.yields_expr hrest)
  | atomic as =>
    cases as with
    | nil => cases ha
    | cons a as =>
      have htokens : (atomic (a :: as)).tokens ++ rest = .wordAtomic :: .leftBrace ::
          (assignmentTokens a ++ (furtherTokens as ++ .rightBrace :: rest)) := by
        simp [tokens, blockTokens]
      rw [htokens]
      exact yields_action_atomic (yields_assignmentTokens a (noOperator_furtherTokens as rest))
        (yields_furtherTokens as rest)
  | receive channel target => exact yields_action_receive
  | send channel value => exact yields_action_send (value.yields_expr hrest)

end Action

namespace Parser

variable {ts mid rest : List Token} {first u v : Stmt}

theorem yields_stmt (hfirst : Yields (simple ts) u mid) (hmore : Yields (sequence u mid) v rest) :
    Yields (stmt ts) v rest := by
  obtain ⟨hlt, hfirst⟩ := hfirst
  obtain ⟨hlt', hmore⟩ := hmore
  refine ⟨by omega, ?_⟩
  rw [stmt, bind_of_eq_ok hfirst, bind_of_eq_ok hmore]
  rfl

theorem yields_sequence_step (hends : endsStmt ts = false) (hsecond : Yields (simple ts) u mid)
    (hmore : Yields (sequence (.seq first u) mid) v rest) :
    Yields (sequence first (.semicolon :: ts)) v rest := by
  obtain ⟨hlt, hsecond⟩ := hsecond
  obtain ⟨hlt', hmore⟩ := hmore
  refine ⟨by simp only [List.length_cons]; omega, ?_⟩
  rw [sequence, if_neg (by simp [hends]), bind_of_eq_ok hsecond, bind_of_eq_ok hmore]
  rfl

theorem yields_sequence_stop (h : rest.head? ≠ some .semicolon) :
    Yields (sequence first rest) first rest := by
  refine ⟨Nat.lt_succ_self _, ?_⟩
  rw [sequence]
  rintro rest rfl
  exact h rfl

theorem yields_simple_basic {a : Action} {t : Token} (ht : ts.head? = some t) (hif : t ≠ .wordIf)
    (hdo : t ≠ .wordDo) (h : Yields (action ts) a rest) : Yields (simple ts) (.basic a) rest := by
  obtain ⟨hlt, h⟩ := h
  refine ⟨hlt, ?_⟩
  rw [simple, bind_of_eq_ok h]
  · rfl
  · rintro rest rfl
    exact hif (Option.some.inj ht).symm
  · rintro rest rfl
    exact hdo (Option.some.inj ht).symm

theorem yields_simple_choice {os : List (Expr × Stmt)} (hos : os ≠ [])
    (h : Yields (options ts) os (.wordFi :: rest)) :
    Yields (simple (.wordIf :: ts)) (.choice os) rest := by
  obtain ⟨hlt, h⟩ := h
  obtain ⟨_, hclose⟩ := yields_expect .wordFi rest
  refine ⟨by simp only [List.length_cons] at hlt ⊢; omega, ?_⟩
  rw [simple, bind_of_eq_ok h, if_neg (by simpa using hos), bind_of_eq_ok hclose]
  rfl

theorem yields_simple_loop {os : List (Expr × Stmt)} (hos : os ≠ [])
    (h : Yields (options ts) os (.wordOd :: rest)) :
    Yields (simple (.wordDo :: ts)) (.loop os) rest := by
  obtain ⟨hlt, h⟩ := h
  obtain ⟨_, hclose⟩ := yields_expect .wordOd rest
  refine ⟨by simp only [List.length_cons] at hlt ⊢; omega, ?_⟩
  rw [simple, bind_of_eq_ok h, if_neg (by simpa using hos), bind_of_eq_ok hclose]
  rfl

theorem yields_options_cons {g : Expr} {os : List (Expr × Stmt)} {us : List Token}
    (hguard : Yields (expr ts) g (.arrow :: us)) (hbody : Yields (stmt us) u mid)
    (hmore : Yields (options mid) os rest) :
    Yields (options (.doubleColon :: ts)) ((g, u) :: os) rest := by
  obtain ⟨hlt, hguard⟩ := hguard
  obtain ⟨_, hsign⟩ := yields_expect .arrow us
  obtain ⟨hlt', hbody⟩ := hbody
  obtain ⟨hlt'', hmore⟩ := hmore
  refine ⟨by simp only [List.length_cons] at hlt ⊢; omega, ?_⟩
  rw [options, bind_of_eq_ok hguard, bind_of_eq_ok hsign, bind_of_eq_ok hbody, bind_of_eq_ok hmore]
  rfl

theorem yields_options_stop (h : rest.head? ≠ some .doubleColon) :
    Yields (options rest) [] rest := by
  refine ⟨Nat.lt_succ_self _, ?_⟩
  rw [options]
  rintro rest rfl
  exact h rfl

end Parser

namespace Stmt

open OmegaCheck.Parser

mutual
/-- Sequences nested to the left, with `f` applied to the actions and `g` to the guards. -/
def nestWith (f : Action → Action) (g : Expr → Expr) : Stmt → Stmt
  | basic action => basic (f action)
  | seq first second => attachWith f g (nestWith f g first) second
  | choice options => choice (nestOptionsWith f g options)
  | loop options => loop (nestOptionsWith f g options)

/-- The sequence of `first`, which is nested already, and a statement that is not. -/
def attachWith (f : Action → Action) (g : Expr → Expr) (first : Stmt) : Stmt → Stmt
  | basic action => seq first (basic (f action))
  | seq second third => attachWith f g (attachWith f g first second) third
  | choice options => seq first (choice (nestOptionsWith f g options))
  | loop options => seq first (loop (nestOptionsWith f g options))

def nestOptionsWith (f : Action → Action) (g : Expr → Expr) :
    List (Expr × Stmt) → List (Expr × Stmt)
  | [] => []
  | (guard, body) :: rest => (g guard, nestWith f g body) :: nestOptionsWith f g rest
end

/-- The statement that the text of `s` is read as. -/
def norm (s : Stmt) : Stmt := nestWith Action.norm Expr.norm s

theorem nestOptionsWith_eq_map {f : Action → Action} {g : Expr → Expr} (os : List (Expr × Stmt)) :
    nestOptionsWith f g os = os.map fun o => (g o.1, nestWith f g o.2) := by
  induction os with
  | nil => rfl
  | cons o os ih => rw [nestOptionsWith, ih, List.map_cons]

/-- The text of `s` reads as its normal form, alone and after the statements read before. -/
structure Reads (s : Stmt) : Prop where
  whole : ∀ {rest v rest'}, NoOperator levels rest → Yields (sequence s.norm rest) v rest' →
    Yields (stmt (s.tokens ++ rest)) v rest'
  more : ∀ {first rest v rest'}, NoOperator levels rest →
    Yields (sequence (attachWith Action.norm Expr.norm first s) rest) v rest' →
      Yields (sequence first (.semicolon :: (s.tokens ++ rest))) v rest'

theorem Reads.of_simple {s : Stmt} {t : Token} (ht : s.tokens.head? = some t)
    (hends : endsStmt [t] = false)
    (hattach : ∀ first, attachWith Action.norm Expr.norm first s = .seq first s.norm)
    (hsimple : ∀ rest, NoOperator levels rest → Yields (simple (s.tokens ++ rest)) s.norm rest) :
    Reads s where
  whole hrest hmore := yields_stmt (hsimple _ hrest) hmore
  more {first rest v rest'} hrest hmore := by
    have hends' : endsStmt (s.tokens ++ rest) = false := by
      obtain ⟨tail, htail⟩ := List.head?_eq_some_iff.1 ht
      rw [htail]
      exact hends
    rw [hattach] at hmore
    exact yields_sequence_step hends' (hsimple _ hrest) hmore

theorem Reads.seq {a b : Stmt} (ha : Reads a) (hb : Reads b) : Reads (seq a b) where
  whole hrest hmore := by
    rw [tokens, List.append_assoc]
    apply ha.whole (noOperator_cons levels (by simp))
    exact hb.more hrest hmore
  more hrest hmore := by
    -- The sequence read so far takes in all of `a` first, then goes on with `b`.
    rw [tokens, List.append_assoc]
    apply ha.more (noOperator_cons levels (by simp))
    exact hb.more hrest hmore

theorem Reads.basic {a : Action} (ha : a.filled = true) : Reads (basic a) := by
  have hhead : ∃ t, a.tokens.head? = some t ∧ endsStmt [t] = false ∧ t ≠ .wordIf ∧ t ≠ .wordDo := by
    cases a <;> exact ⟨_, rfl, by simp [endsStmt], by simp, by simp⟩
  obtain ⟨t, ht, hends, hif, hdo⟩ := hhead
  have ht' : (Stmt.basic a).tokens.head? = some t := by rwa [tokens]
  apply Reads.of_simple ht' hends (fun _ => rfl)
  intro rest hrest
  apply yields_simple_basic _ hif hdo
  · rw [tokens]
    exact a.yields_action ha hrest
  · rw [List.head?_append, ht']
    rfl

theorem Reads.yields {s : Stmt} (h : Reads s) {rest : List Token} (hop : NoOperator levels rest)
    (hsemicolon : rest.head? ≠ some .semicolon) : Yields (stmt (s.tokens ++ rest)) s.norm rest :=
  h.whole hop (yields_sequence_stop hsemicolon)

theorem head?_options (os : List (Expr × Stmt)) (t : Token) (rest : List Token) :
    (optionTokens os ++ t :: rest).head? = some .doubleColon ∨
      (optionTokens os ++ t :: rest).head? = some t := by
  cases os with
  | nil => exact .inr rfl
  | cons o os => exact .inl rfl

/-- What follows the body of an option ends it. -/
theorem Reads.yields_body {body : Stmt} (h : Reads body) (os : List (Expr × Stmt)) {t : Token}
    (rest : List Token) (ht : t = .wordFi ∨ t = .wordOd) :
    Yields (stmt (body.tokens ++ (optionTokens os ++ t :: rest))) body.norm
      (optionTokens os ++ t :: rest) := by
  have hhead := head?_options os t rest
  apply h.yields
  · intro o ho
    rcases hhead with hhead | hhead <;> rcases ht with rfl | rfl <;> simp [hhead] at ho
  · intro ho
    rcases hhead with hhead | hhead <;> rcases ht with rfl | rfl <;> simp [hhead] at ho

theorem yields_options {os : List (Expr × Stmt)} (hos : ∀ o ∈ os, Reads o.2) {t : Token}
    (rest : List Token) (ht : t = .wordFi ∨ t = .wordOd) :
    Yields (options (optionTokens os ++ t :: rest)) (nestOptionsWith Action.norm Expr.norm os)
      (t :: rest) := by
  induction os with
  | nil =>
    apply yields_options_stop
    rintro ⟨⟩
    simp at ht
  | cons o os ih =>
    rw [List.forall_mem_cons] at hos
    have htokens : optionTokens (o :: os) ++ t :: rest = .doubleColon ::
        (o.1.tokens ++ .arrow :: (o.2.tokens ++ (optionTokens os ++ t :: rest))) := by
      simp [optionTokens]
    rw [htokens]
    apply yields_options_cons
    · exact o.1.yields_expr (noOperator_cons levels (by simp))
    · exact hos.1.yields_body os rest ht
    · exact ih hos.2

theorem reads (s : Stmt) (hs : s.all Action.filled (fun _ => true) = true) : Reads s := by
  induction s with
  | basic a => exact Reads.basic hs
  | seq s t ihs iht =>
    rw [all_seq] at hs
    exact (ihs hs.1).seq (iht hs.2)
  | choice os ih =>
    rw [all_choice] at hs
    apply Reads.of_simple rfl rfl (fun _ => rfl)
    intro rest hrest
    rw [tokens, List.cons_append, List.append_assoc]
    apply yields_simple_choice
    · simpa [nestOptionsWith_eq_map] using hs.1
    · exact yields_options (fun o ho => ih o ho (hs.2 o ho).2) rest (.inl rfl)
  | loop os ih =>
    rw [all_loop] at hs
    apply Reads.of_simple rfl rfl (fun _ => rfl)
    intro rest hrest
    rw [tokens, List.cons_append, List.append_assoc]
    apply yields_simple_loop
    · simpa [nestOptionsWith_eq_map] using hs.1
    · exact yields_options (fun o ho => ih o ho (hs.2 o ho).2) rest (.inr rfl)

end Stmt

end OmegaCheck
