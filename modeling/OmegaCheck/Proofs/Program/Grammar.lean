import OmegaCheck.Proofs.Program.UniqueReading

/-!
# The grammar of programs

The derivations of the grammar as trees. Each tree has the tokens it derives and the expression,
action or statement it stands for. Binary operators are in layers: an operand of one level is a chain
of operands of the next tighter level. A minus sign before a number belongs to the number, so what a
minus sign is applied to otherwise must not begin with a number, and has a type of its own.

No token sequence has two derivations. This is shown for the beginning of a longer sequence, where it
holds as long as what follows cannot go on with the phrase.
-/

namespace OmegaCheck

namespace Grammar

open OmegaCheck.Parser (levels signBound endsStmt NoOperator noOperator_cons)

mutual
/-- An operand of the tightest `k` levels. -/
inductive Operand : Nat → Type
  | unary (u : Unary) : Operand 0
  | level {k : Nat} (first : Operand k) (more : Chain k) : Operand (k + 1)

/-- Operators of the level next to the tightest `k`, each with its right operand. -/
inductive Chain : Nat → Type
  | nil {k : Nat} : Chain k
  | cons {k : Nat} (o : BinOp) (ho : o.level + k = levels) (rhs : Operand k) (more : Chain k) :
      Chain k

/-- An operand without binary operators outside of parentheses. -/
inductive Unary : Type
  | number (n : Nat) (h : n < signBound)
  | other (u : Unnumbered)

/-- An operand of this kind that does not begin with a number. -/
inductive Unnumbered : Type
  | negative (n : Nat) (h : n ≤ signBound)
  | neg (u : Unnumbered)
  | not (u : Unary)
  | wordTrue
  | wordFalse
  | var (name : String)
  | paren (e : Operand levels)
end

mutual
def Operand.tokens : {k : Nat} → Operand k → List Token
  | _, .unary u => u.tokens
  | _, .level first more => first.tokens ++ more.tokens

def Chain.tokens : {k : Nat} → Chain k → List Token
  | _, .nil => []
  | _, .cons o _ rhs more => .op o :: (rhs.tokens ++ more.tokens)

def Unary.tokens : Unary → List Token
  | .number n _ => [.int n]
  | .other u => u.tokens

def Unnumbered.tokens : Unnumbered → List Token
  | .negative n _ => [.op .sub, .int n]
  | .neg u => .op .sub :: u.tokens
  | .not u => .bang :: u.tokens
  | .wordTrue => [.wordTrue]
  | .wordFalse => [.wordFalse]
  | .var name => [.ident name]
  | .paren e => .leftParen :: (e.tokens ++ [.rightParen])
end

mutual
def Operand.value : {k : Nat} → Operand k → Expr
  | _, .unary u => u.value
  | _, .level first more => more.value first.value

/-- The operators of the chain applied to `lhs`, from the left. -/
def Chain.value : {k : Nat} → Chain k → Expr → Expr
  | _, .nil, lhs => lhs
  | _, .cons o _ rhs more, lhs => more.value (.binary o lhs rhs.value)

def Unary.value : Unary → Expr
  | .number n _ => .int (Int64.ofNat n)
  | .other u => u.value

def Unnumbered.value : Unnumbered → Expr
  | .negative n _ => .int (Int64.ofInt (-n))
  | .neg u => .neg u.value
  | .not u => .not u.value
  | .wordTrue => .bool true
  | .wordFalse => .bool false
  | .var name => .var name
  | .paren e => e.value
end

structure Assignment where
  target : String
  source : Operand levels

def Assignment.tokens (a : Assignment) : List Token := .ident a.target :: .assign :: a.source.tokens

def Assignment.value (a : Assignment) : String × Expr := (a.target, a.source.value)

/-- What follows the first assignment of a block, with or without a semicolon at its end. -/
inductive Assignments where
  | stop (semicolon : Bool)
  | next (a : Assignment) (more : Assignments)

def stopTokens (semicolon : Bool) : List Token := if semicolon then [.semicolon] else []

def Assignments.tokens : Assignments → List Token
  | stop semicolon => stopTokens semicolon
  | next a more => .semicolon :: (a.tokens ++ more.tokens)

def Assignments.value : Assignments → List (String × Expr)
  | stop _ => []
  | next a more => a.value :: more.value

inductive Basic where
  | skip
  | atomic (first : Assignment) (more : Assignments)
  | assign (a : Assignment)
  | receive (channel target : String)
  | send (channel : String) (e : Operand levels)

def Basic.tokens : Basic → List Token
  | skip => [.wordSkip]
  | atomic first more =>
    .wordAtomic :: .leftBrace :: (first.tokens ++ (more.tokens ++ [.rightBrace]))
  | assign a => a.tokens
  | receive channel target => [.ident channel, .question, .ident target]
  | send channel e => .ident channel :: .bang :: e.tokens

def Basic.value : Basic → Action
  | skip => .skip
  | atomic first more => .atomic (first.value :: more.value)
  | assign a => .assign a.target a.source.value
  | receive channel target => .receive channel target
  | send channel e => .send channel e.value

structure Pair where
  first : Basic
  second : Basic

def Pair.tokens (p : Pair) : List Token := p.first.tokens ++ .bar :: p.second.tokens

def Pair.value (p : Pair) : Action × Action := (p.first.value, p.second.value)

mutual
inductive Program : Type
  | mk (first : Simple) (sequel : Sequel)

/-- What follows the first statement of a sequence, with or without a semicolon at its end. -/
inductive Sequel : Type
  | stop (semicolon : Bool)
  | next (s : Simple) (more : Sequel)

inductive Simple : Type
  | basic (a : Basic)
  | choice (os : Options)
  | loop (os : Options)

inductive Options : Type
  | last (o : Branch)
  | next (o : Branch) (more : Options)

inductive Branch : Type
  | mk (guard : Operand levels) (body : Program)
end

mutual
def Program.tokens : Program → List Token
  | .mk first sequel => first.tokens ++ sequel.tokens

def Sequel.tokens : Sequel → List Token
  | .stop semicolon => stopTokens semicolon
  | .next s more => .semicolon :: (s.tokens ++ more.tokens)

def Simple.tokens : Simple → List Token
  | .basic a => a.tokens
  | .choice os => .wordIf :: (os.tokens ++ [.wordFi])
  | .loop os => .wordDo :: (os.tokens ++ [.wordOd])

def Options.tokens : Options → List Token
  | .last o => o.tokens
  | .next o more => o.tokens ++ more.tokens

def Branch.tokens : Branch → List Token
  | .mk guard body => .doubleColon :: (guard.tokens ++ .arrow :: body.tokens)
end

mutual
def Program.value : Program → Stmt
  | .mk first sequel => sequel.value first.value

/-- The statements of the sequel joined to `first`, from the left. -/
def Sequel.value : Sequel → Stmt → Stmt
  | .stop _, first => first
  | .next s more, first => more.value (.seq first s.value)

def Simple.value : Simple → Stmt
  | .basic a => .basic a.value
  | .choice os => .choice os.value
  | .loop os => .loop os.value

def Options.value : Options → List (Expr × Stmt)
  | .last o => [o.value]
  | .next o more => o.value :: more.value

def Branch.value : Branch → Expr × Stmt
  | .mk guard body => (guard.value, body.value)
end

section Follow

variable {k : Nat} {rest : List Token}

theorem Unnumbered.head_ne_int (u : Unnumbered) (n : Nat) (rest : List Token) :
    (u.tokens ++ rest).head? ≠ some (.int n) := by
  cases u <;> simp [tokens]

/-- The operator of a chain does not go on with the operand before it. -/
theorem Chain.noOperator (c : Chain k) (h : NoOperator (k + 1) rest) :
    NoOperator k (c.tokens ++ rest) := by
  cases c with
  | nil => exact h.of_succ
  | cons o ho rhs more =>
    intro o' ho'
    cases ho'
    omega

theorem noOperator_arrow (rest : List Token) : NoOperator levels (.arrow :: rest) :=
  noOperator_cons levels (by simp)

theorem noOperator_bar (rest : List Token) : NoOperator levels (.bar :: rest) :=
  noOperator_cons levels (by simp)

theorem noOperator_rightBrace (rest : List Token) : NoOperator levels (.rightBrace :: rest) :=
  noOperator_cons levels (by simp)

theorem noOperator_rightParen (rest : List Token) : NoOperator levels (.rightParen :: rest) :=
  noOperator_cons levels (by simp)

theorem noOperator_stop {semicolon : Bool} (h : NoOperator levels rest) :
    NoOperator levels (stopTokens semicolon ++ rest) := by
  cases semicolon with
  | false => exact h
  | true => exact noOperator_cons levels (by simp)

theorem Assignments.noOperator (as : Assignments) (h : NoOperator levels rest) :
    NoOperator levels (as.tokens ++ rest) := by
  cases as with
  | stop semicolon => exact noOperator_stop h
  | next a more => exact noOperator_cons levels (by simp)

theorem Sequel.noOperator (s : Sequel) (h : NoOperator levels rest) :
    NoOperator levels (s.tokens ++ rest) := by
  cases s with
  | stop semicolon => exact noOperator_stop h
  | next s more => exact noOperator_cons levels (by simp)

theorem noOperator_of_endsStmt (h : endsStmt rest = true) : NoOperator levels rest := by
  intro o ho
  obtain ⟨tail, rfl⟩ := List.head?_eq_some_iff.mp ho
  simp [endsStmt] at h

theorem Basic.exists_cons (a : Basic) : ∃ t tail, a.tokens = t :: tail ∧ endsStmt [t] = false ∧
    t ≠ .wordIf ∧ t ≠ .wordDo := by
  cases a <;> exact ⟨_, _, rfl, by simp [endsStmt], by simp, by simp⟩

theorem Simple.endsStmt_eq_false (s : Simple) (rest : List Token) :
    endsStmt (s.tokens ++ rest) = false := by
  cases s with
  | basic a =>
    obtain ⟨t, tail, ht, hends, _⟩ := a.exists_cons
    rw [tokens, ht]
    exact hends
  | choice os => rfl
  | loop os => rfl

theorem Options.exists_cons (os : Options) : ∃ tail, os.tokens = .doubleColon :: tail := by
  cases os with
  | last o => cases o; exact ⟨_, rfl⟩
  | next o more => cases o; exact ⟨_, rfl⟩

theorem Options.endsStmt_eq_true (os : Options) (rest : List Token) :
    endsStmt (os.tokens ++ rest) = true := by
  obtain ⟨tail, htail⟩ := os.exists_cons
  rw [htail]
  rfl

theorem Options.value_ne_nil (os : Options) : os.value ≠ [] := by
  cases os <;> simp [value]

/-- The words that close a choice or a loop. -/
def Closes (t : Token) : Prop := t = .wordFi ∨ t = .wordOd

theorem Closes.endsStmt {t : Token} (h : Closes t) (rest : List Token) :
    endsStmt (t :: rest) = true := by
  rcases h with rfl | rfl <;> rfl

theorem Closes.ne_doubleColon {t : Token} (h : Closes t) : t ≠ .doubleColon := by
  rcases h with rfl | rfl <;> simp

end Follow

mutual
theorem Operand.unique {k : Nat} (d d' : Operand k) {rest rest' : List Token}
    (hrest : NoOperator k rest) (hrest' : NoOperator k rest')
    (h : d.tokens ++ rest = d'.tokens ++ rest') : d = d' ∧ rest = rest' := by
  match d, d' with
  | .unary u, .unary u' =>
    obtain ⟨rfl, rfl⟩ := u.unique u' h
    exact ⟨rfl, rfl⟩
  | .level first more, .level first' more' =>
    rw [Operand.tokens, Operand.tokens, List.append_assoc, List.append_assoc] at h
    obtain ⟨rfl, hmore⟩ := first.unique first' (more.noOperator hrest) (more'.noOperator hrest') h
    obtain ⟨rfl, rfl⟩ := more.unique more' hrest hrest' hmore
    exact ⟨rfl, rfl⟩
termination_by structural d

theorem Chain.unique {k : Nat} (d d' : Chain k) {rest rest' : List Token}
    (hrest : NoOperator (k + 1) rest) (hrest' : NoOperator (k + 1) rest')
    (h : d.tokens ++ rest = d'.tokens ++ rest') : d = d' ∧ rest = rest' := by
  match d, d' with
  | .nil, .nil => exact ⟨rfl, h⟩
  | .nil, .cons o ho rhs more =>
    have := hrest o (congrArg List.head? h)
    omega
  | .cons o ho rhs more, .nil =>
    have := hrest' o (congrArg List.head? h).symm
    omega
  | .cons o ho rhs more, .cons o' ho' rhs' more' =>
    rw [Chain.tokens, Chain.tokens, List.cons_append, List.cons_append, List.append_assoc,
      List.append_assoc, List.cons.injEq, Token.op.injEq] at h
    obtain ⟨rfl, h⟩ := h
    obtain ⟨rfl, hmore⟩ := rhs.unique rhs' (more.noOperator hrest) (more'.noOperator hrest') h
    obtain ⟨rfl, rfl⟩ := more.unique more' hrest hrest' hmore
    exact ⟨rfl, rfl⟩
termination_by structural d

theorem Unary.unique (d d' : Unary) {rest rest' : List Token}
    (h : d.tokens ++ rest = d'.tokens ++ rest') : d = d' ∧ rest = rest' := by
  match d, d' with
  | .number n _, .number n' _ =>
    obtain ⟨⟨⟩, rfl⟩ := List.cons.inj h
    exact ⟨rfl, rfl⟩
  | .number n _, .other u' =>
    exact absurd (congrArg List.head? h).symm (u'.head_ne_int n rest')
  | .other u, .number n' _ =>
    exact absurd (congrArg List.head? h) (u.head_ne_int n' rest)
  | .other u, .other u' =>
    obtain ⟨rfl, rfl⟩ := u.unique u' h
    exact ⟨rfl, rfl⟩
termination_by structural d

theorem Unnumbered.unique (d d' : Unnumbered) {rest rest' : List Token}
    (h : d.tokens ++ rest = d'.tokens ++ rest') : d = d' ∧ rest = rest' := by
  cases d with
  | negative n hn =>
    cases d' with
    | negative n' hn' =>
      obtain ⟨⟨⟩, rfl⟩ : n = n' ∧ rest = rest' := by simpa [Unnumbered.tokens] using h
      exact ⟨rfl, rfl⟩
    | neg u' =>
      have htail : .int n :: rest = u'.tokens ++ rest' := by simpa [Unnumbered.tokens] using h
      exact absurd (congrArg List.head? htail).symm (u'.head_ne_int n rest')
    | _ => simp [Unnumbered.tokens] at h
  | neg u =>
    cases d' with
    | negative n' hn' =>
      have htail : u.tokens ++ rest = .int n' :: rest' := by simpa [Unnumbered.tokens] using h
      exact absurd (congrArg List.head? htail) (u.head_ne_int n' rest)
    | neg u' =>
      obtain ⟨rfl, rfl⟩ := u.unique u' (List.cons.inj h).2
      exact ⟨rfl, rfl⟩
    | _ => simp [Unnumbered.tokens] at h
  | not u =>
    cases d' with
    | not u' =>
      obtain ⟨rfl, rfl⟩ := u.unique u' (List.cons.inj h).2
      exact ⟨rfl, rfl⟩
    | _ => simp [Unnumbered.tokens] at h
  | wordTrue =>
    cases d' with
    | wordTrue => exact ⟨rfl, (List.cons.inj h).2⟩
    | _ => simp [Unnumbered.tokens] at h
  | wordFalse =>
    cases d' with
    | wordFalse => exact ⟨rfl, (List.cons.inj h).2⟩
    | _ => simp [Unnumbered.tokens] at h
  | var name =>
    cases d' with
    | var name' =>
      obtain ⟨⟨⟩, rfl⟩ := List.cons.inj h
      exact ⟨rfl, rfl⟩
    | _ => simp [Unnumbered.tokens] at h
  | paren e =>
    cases d' with
    | paren e' =>
      have htail : e.tokens ++ .rightParen :: rest = e'.tokens ++ .rightParen :: rest' := by
        simpa [Unnumbered.tokens] using h
      obtain ⟨rfl, hrest⟩ := e.unique e' (noOperator_rightParen _) (noOperator_rightParen _) htail
      exact ⟨rfl, (List.cons.inj hrest).2⟩
    | _ => simp [Unnumbered.tokens] at h
termination_by structural d
end

theorem Assignment.unique (a a' : Assignment) {rest rest' : List Token}
    (hrest : NoOperator levels rest) (hrest' : NoOperator levels rest')
    (h : a.tokens ++ rest = a'.tokens ++ rest') : a = a' ∧ rest = rest' := by
  obtain ⟨x, e⟩ := a
  obtain ⟨x', e'⟩ := a'
  obtain ⟨rfl, htail⟩ : x = x' ∧ e.tokens ++ rest = e'.tokens ++ rest' := by
    simpa [tokens] using h
  obtain ⟨rfl, rfl⟩ := e.unique e' hrest hrest' htail
  exact ⟨rfl, rfl⟩

theorem Assignments.unique (d d' : Assignments) {rest rest' : List Token}
    (h : d.tokens ++ .rightBrace :: rest = d'.tokens ++ .rightBrace :: rest') :
    d = d' ∧ rest = rest' := by
  induction d generalizing d' with
  | stop semicolon =>
    cases d' with
    | stop semicolon' =>
      cases semicolon <;> cases semicolon' <;> simp_all [tokens, stopTokens]
    | next a' more' => cases semicolon <;> simp [tokens, stopTokens, Assignment.tokens] at h
  | next a more ih =>
    cases d' with
    | stop semicolon' => cases semicolon' <;> simp [tokens, stopTokens, Assignment.tokens] at h
    | next a' more' =>
      rw [tokens, tokens, List.cons_append, List.cons_append, List.append_assoc, List.append_assoc,
        List.cons.injEq] at h
      obtain ⟨rfl, hmore⟩ := a.unique a' (more.noOperator (noOperator_rightBrace rest))
        (more'.noOperator (noOperator_rightBrace rest')) h.2
      obtain ⟨rfl, rfl⟩ := ih more' hmore
      exact ⟨rfl, rfl⟩

theorem Basic.unique (d d' : Basic) {rest rest' : List Token}
    (hrest : NoOperator levels rest) (hrest' : NoOperator levels rest')
    (h : d.tokens ++ rest = d'.tokens ++ rest') : d = d' ∧ rest = rest' := by
  cases d with
  | skip =>
    cases d' with
    | skip => exact ⟨rfl, (List.cons.inj h).2⟩
    | _ => simp [tokens, Assignment.tokens] at h
  | atomic first more =>
    cases d' with
    | atomic first' more' =>
      have htail : first.tokens ++ (more.tokens ++ .rightBrace :: rest) =
          first'.tokens ++ (more'.tokens ++ .rightBrace :: rest') := by simpa [tokens] using h
      obtain ⟨rfl, hmore⟩ := first.unique first' (more.noOperator (noOperator_rightBrace rest))
        (more'.noOperator (noOperator_rightBrace rest')) htail
      obtain ⟨rfl, rfl⟩ := more.unique more' hmore
      exact ⟨rfl, rfl⟩
    | _ => simp [tokens, Assignment.tokens] at h
  | assign a =>
    cases d' with
    | assign a' =>
      obtain ⟨rfl, rfl⟩ := a.unique a' hrest hrest' h
      exact ⟨rfl, rfl⟩
    | _ => simp [tokens, Assignment.tokens] at h
  | receive channel target =>
    cases d' with
    | receive channel' target' =>
      obtain ⟨rfl, rfl, rfl⟩ : channel = channel' ∧ target = target' ∧ rest = rest' := by
        simpa [tokens] using h
      exact ⟨rfl, rfl⟩
    | _ => simp [tokens, Assignment.tokens] at h
  | send channel e =>
    cases d' with
    | send channel' e' =>
      obtain ⟨rfl, htail⟩ : channel = channel' ∧ e.tokens ++ rest = e'.tokens ++ rest' := by
        simpa [tokens] using h
      obtain ⟨rfl, rfl⟩ := e.unique e' hrest hrest' htail
      exact ⟨rfl, rfl⟩
    | _ => simp [tokens, Assignment.tokens] at h

theorem Pair.unique (d d' : Pair) {rest rest' : List Token}
    (hrest : NoOperator levels rest) (hrest' : NoOperator levels rest')
    (h : d.tokens ++ rest = d'.tokens ++ rest') : d = d' ∧ rest = rest' := by
  obtain ⟨first, second⟩ := d
  obtain ⟨first', second'⟩ := d'
  rw [tokens, tokens, List.append_assoc, List.append_assoc] at h
  obtain ⟨rfl, hsecond⟩ := first.unique first' (noOperator_bar _) (noOperator_bar _) h
  obtain ⟨rfl, rfl⟩ := second.unique second' hrest hrest' (List.cons.inj hsecond).2
  exact ⟨rfl, rfl⟩

mutual
theorem Program.unique (d d' : Program) {rest rest' : List Token}
    (hrest : endsStmt rest = true) (hrest' : endsStmt rest' = true)
    (h : d.tokens ++ rest = d'.tokens ++ rest') : d = d' ∧ rest = rest' := by
  cases d with
  | mk first sequel =>
    cases d' with
    | mk first' sequel' =>
    rw [Program.tokens, Program.tokens, List.append_assoc, List.append_assoc] at h
    obtain ⟨rfl, hmore⟩ := first.unique first' (sequel.noOperator (noOperator_of_endsStmt hrest))
      (sequel'.noOperator (noOperator_of_endsStmt hrest')) h
    obtain ⟨rfl, rfl⟩ := sequel.unique sequel' hrest hrest' hmore
    exact ⟨rfl, rfl⟩
termination_by structural d

theorem Sequel.unique (d d' : Sequel) {rest rest' : List Token}
    (hrest : endsStmt rest = true) (hrest' : endsStmt rest' = true)
    (h : d.tokens ++ rest = d'.tokens ++ rest') : d = d' ∧ rest = rest' := by
  cases d with
  | stop semicolon =>
    cases d' with
    | stop semicolon' =>
      cases semicolon <;> cases semicolon'
      · exact ⟨rfl, h⟩
      · cases hrest.symm.trans (congrArg endsStmt h)
      · cases (congrArg endsStmt h).trans hrest'
      · exact ⟨rfl, (List.cons.inj h).2⟩
    | next s' more' =>
      cases semicolon
      · cases hrest.symm.trans (congrArg endsStmt h)
      · have htail : rest = s'.tokens ++ (more'.tokens ++ rest') := by
          simpa [Sequel.tokens, stopTokens] using h
        rw [htail, s'.endsStmt_eq_false] at hrest
        cases hrest
  | next s more =>
    cases d' with
    | stop semicolon' =>
      cases semicolon'
      · cases (congrArg endsStmt h).trans hrest'
      · have htail : s.tokens ++ (more.tokens ++ rest) = rest' := by
          simpa [Sequel.tokens, stopTokens] using h
        rw [← htail, s.endsStmt_eq_false] at hrest'
        cases hrest'
    | next s' more' =>
      rw [Sequel.tokens, Sequel.tokens, List.cons_append, List.cons_append, List.append_assoc,
        List.append_assoc, List.cons.injEq] at h
      obtain ⟨rfl, hmore⟩ := s.unique s' (more.noOperator (noOperator_of_endsStmt hrest))
        (more'.noOperator (noOperator_of_endsStmt hrest')) h.2
      obtain ⟨rfl, rfl⟩ := more.unique more' hrest hrest' hmore
      exact ⟨rfl, rfl⟩
termination_by structural d

theorem Simple.unique (d d' : Simple) {rest rest' : List Token}
    (hrest : NoOperator levels rest) (hrest' : NoOperator levels rest')
    (h : d.tokens ++ rest = d'.tokens ++ rest') : d = d' ∧ rest = rest' := by
  cases d with
  | basic a =>
    obtain ⟨t, tail, ht, _, hif, hdo⟩ := a.exists_cons
    cases d' with
    | basic a' =>
      obtain ⟨rfl, rfl⟩ := a.unique a' hrest hrest' h
      exact ⟨rfl, rfl⟩
    | choice os' =>
      rw [Simple.tokens, ht] at h
      exact absurd (List.cons.inj h).1 hif
    | loop os' =>
      rw [Simple.tokens, ht] at h
      exact absurd (List.cons.inj h).1 hdo
  | choice os =>
    cases d' with
    | basic a' =>
      obtain ⟨t, tail, ht, _, hif, _⟩ := a'.exists_cons
      rw [Simple.tokens, Simple.tokens, ht] at h
      exact absurd (List.cons.inj h).1.symm hif
    | choice os' =>
      have htail : os.tokens ++ .wordFi :: rest = os'.tokens ++ .wordFi :: rest' := by
        simpa [Simple.tokens] using h
      obtain ⟨rfl, rfl⟩ := os.unique os' (.inl rfl) htail
      exact ⟨rfl, rfl⟩
    | loop os' => cases (List.cons.inj h).1
  | loop os =>
    cases d' with
    | basic a' =>
      obtain ⟨t, tail, ht, _, _, hdo⟩ := a'.exists_cons
      rw [Simple.tokens, Simple.tokens, ht] at h
      exact absurd (List.cons.inj h).1.symm hdo
    | choice os' => cases (List.cons.inj h).1
    | loop os' =>
      have htail : os.tokens ++ .wordOd :: rest = os'.tokens ++ .wordOd :: rest' := by
        simpa [Simple.tokens] using h
      obtain ⟨rfl, rfl⟩ := os.unique os' (.inr rfl) htail
      exact ⟨rfl, rfl⟩
termination_by structural d

theorem Options.unique (d d' : Options) {close : Token} (hclose : Closes close)
    {rest rest' : List Token} (h : d.tokens ++ close :: rest = d'.tokens ++ close :: rest') :
    d = d' ∧ rest = rest' := by
  cases d with
  | last o =>
    cases d' with
    | last o' =>
      obtain ⟨rfl, hrest⟩ := o.unique o' (hclose.endsStmt rest) (hclose.endsStmt rest') h
      exact ⟨rfl, (List.cons.inj hrest).2⟩
    | next o' more' =>
      rw [Options.tokens, Options.tokens, List.append_assoc] at h
      obtain ⟨_, hmore⟩ := o.unique o' (hclose.endsStmt rest) (more'.endsStmt_eq_true _) h
      obtain ⟨tail, htail⟩ := more'.exists_cons
      rw [htail] at hmore
      exact absurd (List.cons.inj hmore).1 hclose.ne_doubleColon
  | next o more =>
    cases d' with
    | last o' =>
      rw [Options.tokens, Options.tokens, List.append_assoc] at h
      obtain ⟨_, hmore⟩ := o.unique o' (more.endsStmt_eq_true _) (hclose.endsStmt rest') h
      obtain ⟨tail, htail⟩ := more.exists_cons
      rw [htail] at hmore
      exact absurd (List.cons.inj hmore).1.symm hclose.ne_doubleColon
    | next o' more' =>
      rw [Options.tokens, Options.tokens, List.append_assoc, List.append_assoc] at h
      obtain ⟨rfl, hmore⟩ := o.unique o' (more.endsStmt_eq_true _) (more'.endsStmt_eq_true _) h
      obtain ⟨rfl, rfl⟩ := more.unique more' hclose hmore
      exact ⟨rfl, rfl⟩
termination_by structural d

theorem Branch.unique (d d' : Branch) {rest rest' : List Token}
    (hrest : endsStmt rest = true) (hrest' : endsStmt rest' = true)
    (h : d.tokens ++ rest = d'.tokens ++ rest') : d = d' ∧ rest = rest' := by
  cases d with
  | mk guard body =>
    cases d' with
    | mk guard' body' =>
      have htail : guard.tokens ++ .arrow :: (body.tokens ++ rest) =
          guard'.tokens ++ .arrow :: (body'.tokens ++ rest') := by simpa [Branch.tokens] using h
      obtain ⟨rfl, hbody⟩ := guard.unique guard' (noOperator_arrow _) (noOperator_arrow _) htail
      obtain ⟨rfl, rfl⟩ := body.unique body' hrest hrest' (List.cons.inj hbody).2
      exact ⟨rfl, rfl⟩
termination_by structural d

end

end Grammar

end OmegaCheck
