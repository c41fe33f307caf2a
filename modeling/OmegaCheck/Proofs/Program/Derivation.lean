import OmegaCheck.Proofs.Program.Grammar

/-!
# The readers accept the grammar

A text is read as a program exactly when it is cut into the tokens of a derivation, and the program
is the one that the derivation stands for. In one direction the tokens of every derivation are read,
by induction on the derivation; in the other every reading has a derivation, by induction along the
readers.
-/

namespace OmegaCheck

open OmegaCheck.Parser Grammar

namespace Parser

variable {α β : Type} {m n : Nat} {ts us mid rest : List Token}

/-- Whatever is read, and what is left over, is as `P` says. -/
def Ensures (r : Reading α n) (P : α → List Token → Prop) : Prop :=
  ∀ v rest, Yields r v rest → P v rest

namespace Ensures

variable {P P' : α → List Token → Prop} {Q : β → List Token → Prop}

theorem ok {v : Parsed α n} (h : P v.value v.rest) : Ensures (.ok v) P := by
  rintro _ _ ⟨_, ⟨⟩⟩
  exact h

theorem error (e : Refusal) : Ensures (.error e : Reading α n) P := by
  rintro _ _ ⟨_, ⟨⟩⟩

theorem bind {r : Reading α m} {f : Parsed α m → Reading β n} (h : Ensures r P)
    (hf : ∀ v rest (hlt : rest.length < m), P v rest → Ensures (f ⟨v, rest, hlt⟩) Q) :
    Ensures (r >>= f) Q := by
  rintro w rest ⟨hlt, hw⟩
  cases hr : r with
  | error e =>
    rw [hr] at hw
    cases hw
  | ok v =>
    rw [hr] at hw
    exact hf _ _ v.fewer (h _ _ ⟨v.fewer, hr⟩) _ _ ⟨hlt, hw⟩

theorem mono {r : Reading α n} (h : Ensures r P) (hP : ∀ v rest, P v rest → P' v rest) :
    Ensures r P' :=
  fun v rest hv => hP v rest (h v rest hv)

end Ensures

theorem ensures_expect (t : Token) : Ensures (expect t ts) fun _ rest => ts = t :: rest := by
  unfold expect
  split
  · split
    · next ht => exact .ok (by rw [ht])
    · exact .error _
  · exact .error _

theorem ensures_identifier :
    Ensures (identifier ts) fun name rest => ts = .ident name :: rest := by
  unfold identifier
  split
  · exact .ok rfl
  · exact .error _

/-- The tokens begin with those of a derivation that stands for `v`. -/
def Derived {T : Type} (tokens : T → List Token) (value : T → α) (ts : List Token) (v : α)
    (rest : List Token) : Prop :=
  ∃ d, ts = tokens d ++ rest ∧ value d = v

end Parser

namespace Grammar

variable {k : Nat} {rest : List Token}

mutual
theorem Operand.yields {k : Nat} (d : Operand k) {rest : List Token} (hrest : NoOperator k rest) :
    Yields (operand k (d.tokens ++ rest)) d.value rest := by
  match d with
  | .unary u =>
    rw [operand]
    exact u.yields rest
  | .level first more =>
    rw [Operand.tokens, List.append_assoc]
    exact yields_operand_succ (first.yields (more.noOperator hrest)) (more.yields _ hrest)
termination_by structural d

theorem Chain.yields {k : Nat} (d : Chain k) (lhs : Expr) {rest : List Token}
    (hrest : NoOperator (k + 1) rest) :
    Yields (chain k lhs (d.tokens ++ rest)) (d.value lhs) rest := by
  match d with
  | .nil => exact yields_chain_stop hrest
  | .cons o ho rhs more =>
    rw [Chain.tokens, List.cons_append, List.append_assoc]
    exact yields_chain_step ho (rhs.yields (more.noOperator hrest)) (more.yields _ hrest)
termination_by structural d

theorem Unary.yields (d : Unary) (rest : List Token) :
    Yields (unary (d.tokens ++ rest)) d.value rest := by
  match d with
  | .number n hn =>
    apply yields_unary_primary (by simp) (by simp)
    refine ⟨Nat.lt_succ_self _, ?_⟩
    rw [primary, if_pos hn]
    rfl
  | .other u => exact u.yields rest
termination_by structural d

theorem Unnumbered.yields (d : Unnumbered) (rest : List Token) :
    Yields (unary (d.tokens ++ rest)) d.value rest := by
  match d with
  | .negative n hn => exact Expr.yields_minus_literal hn rest
  | .neg u => exact yields_unary_minus (fun n => u.head_ne_int n rest) (u.yields rest)
  | .not u => exact yields_unary_bang (u.yields rest)
  | .wordTrue | .wordFalse | .var name =>
    apply yields_unary_primary (by simp) (by simp)
    refine ⟨Nat.lt_succ_self _, ?_⟩
    rw [primary]
    rfl
  | .paren e =>
    rw [Unnumbered.tokens, List.cons_append, List.append_assoc]
    apply yields_unary_primary (by simp) (by simp)
    apply yields_primary_paren
    rw [expr_eq_operand]
    exact e.yields (noOperator_rightParen _)
termination_by structural d
end

theorem Operand.yields_expr (d : Operand levels) (hrest : NoOperator levels rest) :
    Yields (expr (d.tokens ++ rest)) d.value rest := by
  rw [expr_eq_operand]
  exact d.yields hrest

theorem Assignment.yields (a : Assignment) (hrest : NoOperator levels rest) :
    Yields (assignment (a.tokens ++ rest)) a.value rest :=
  yields_assignment (a.source.yields_expr hrest)

theorem Assignments.yields (d : Assignments) (rest : List Token) :
    Yields (assignments (d.tokens ++ .rightBrace :: rest)) d.value (.rightBrace :: rest) := by
  induction d with
  | stop semicolon =>
    cases semicolon with
    | false => exact yields_assignments_stop
    | true =>
      change Yields (assignments (.semicolon :: .rightBrace :: rest)) [] (.rightBrace :: rest)
      refine ⟨by simp only [List.length_cons]; omega, ?_⟩
      rw [assignments, if_pos (by simp)]
  | next a more ih =>
    rw [tokens, List.cons_append, List.append_assoc]
    refine yields_assignments_next (by simp [Assignment.tokens]) ?_ ih
    exact a.yields (more.noOperator (noOperator_rightBrace rest))

theorem Basic.yields (d : Basic) (hrest : NoOperator levels rest) :
    Yields (action (d.tokens ++ rest)) d.value rest := by
  cases d with
  | skip => exact ⟨Nat.lt_succ_self _, rfl⟩
  | atomic first more =>
    have htokens : (atomic first more).tokens ++ rest = .wordAtomic :: .leftBrace ::
        (first.tokens ++ (more.tokens ++ .rightBrace :: rest)) := by simp [tokens]
    rw [htokens]
    exact yields_action_atomic (first.yields (more.noOperator (noOperator_rightBrace rest)))
      (more.yields rest)
  | assign a => exact yields_action_assign (a.source.yields_expr hrest)
  | receive channel target => exact yields_action_receive
  | send channel e => exact yields_action_send (e.yields_expr hrest)

theorem Pair.yields (d : Pair) (hrest : NoOperator levels rest) :
    Yields (handshake (d.tokens ++ rest)) d.value rest := by
  obtain ⟨hlt, hfirst⟩ := d.first.yields (noOperator_bar (d.second.tokens ++ rest))
  obtain ⟨_, hsign⟩ := yields_expect .bar (d.second.tokens ++ rest)
  obtain ⟨hlt', hsecond⟩ := d.second.yields hrest
  rw [tokens, List.append_assoc, List.cons_append]
  refine ⟨by simp only [List.length_cons] at *; omega, ?_⟩
  rw [handshake, bind_of_eq_ok hfirst, bind_of_eq_ok hsign, bind_of_eq_ok hsecond]
  rfl

theorem head?_ne_semicolon (h : endsStmt rest = true) : rest.head? ≠ some .semicolon := by
  rintro hrest
  obtain ⟨tail, rfl⟩ := List.head?_eq_some_iff.mp hrest
  cases h

mutual
theorem Program.yields (d : Program) {rest : List Token} (hrest : endsStmt rest = true) :
    Yields (stmt (d.tokens ++ rest)) d.value rest := by
  match d with
  | .mk first sequel =>
    rw [Program.tokens, List.append_assoc]
    exact yields_stmt (first.yields (sequel.noOperator (noOperator_of_endsStmt hrest)))
      (sequel.yields _ hrest)
termination_by structural d

theorem Sequel.yields (d : Sequel) (first : Stmt) {rest : List Token}
    (hrest : endsStmt rest = true) :
    Yields (Parser.sequence first (d.tokens ++ rest)) (d.value first) rest := by
  match d with
  | .stop false => exact yields_sequence_stop (head?_ne_semicolon hrest)
  | .stop true =>
    change Yields (Parser.sequence first (.semicolon :: rest)) first rest
    refine ⟨by simp only [List.length_cons]; omega, ?_⟩
    rw [Parser.sequence, if_pos hrest]
  | .next s more =>
    rw [Sequel.tokens, List.cons_append, List.append_assoc]
    exact yields_sequence_step (s.endsStmt_eq_false _)
      (s.yields (more.noOperator (noOperator_of_endsStmt hrest))) (more.yields _ hrest)
termination_by structural d

theorem Simple.yields (d : Simple) {rest : List Token} (hrest : NoOperator levels rest) :
    Yields (simple (d.tokens ++ rest)) d.value rest := by
  match d with
  | .basic a =>
    obtain ⟨t, tail, ht, _, hif, hdo⟩ := a.exists_cons
    apply yields_simple_basic _ hif hdo (a.yields hrest)
    rw [ht]
    rfl
  | .choice os =>
    rw [Simple.tokens, List.cons_append, List.append_assoc]
    exact yields_simple_choice os.value_ne_nil (os.yields (.inl rfl) rest)
  | .loop os =>
    rw [Simple.tokens, List.cons_append, List.append_assoc]
    exact yields_simple_loop os.value_ne_nil (os.yields (.inr rfl) rest)
termination_by structural d

theorem Options.yields (d : Options) {close : Token} (hclose : Closes close) (rest : List Token) :
    Yields (options (d.tokens ++ close :: rest)) d.value (close :: rest) := by
  match d with
  | .last (.mk guard body) =>
    rw [Options.tokens, Branch.tokens, List.cons_append, List.append_assoc, List.cons_append]
    exact yields_options_cons (guard.yields_expr (noOperator_arrow _))
      (body.yields (hclose.endsStmt rest))
      (yields_options_stop fun h => hclose.ne_doubleColon (Option.some.inj h))
  | .next (.mk guard body) more =>
    rw [Options.tokens, Branch.tokens, List.cons_append, List.cons_append, List.append_assoc,
      List.append_assoc, List.cons_append]
    exact yields_options_cons (guard.yields_expr (noOperator_arrow _))
      (body.yields (more.endsStmt_eq_true _)) (more.yields hclose rest)
termination_by structural d
end

end Grammar

namespace Parser

theorem ensures_operand_chain_unary_primary :
    (∀ k ts, Ensures (operand k ts) (Derived (T := Operand k) Operand.tokens Operand.value ts)) ∧
    (∀ k lhs ts, Ensures (chain k lhs ts) (Derived (T := Chain k) Chain.tokens (·.value lhs) ts)) ∧
    (∀ ts, Ensures (unary ts) (Derived Unary.tokens Unary.value ts)) ∧
    ∀ ts, Ensures (primary ts) (Derived Unary.tokens Unary.value ts) := by
  refine operand_induct
    ?tightest ?level ?step ?stop ?bang ?negative ?negativeRange ?minus ?primary ?number ?numberRange
    ?wordTrue ?wordFalse ?var ?paren ?refused
  case tightest =>
    intro ts ih
    rw [operand]
    refine ih.mono ?_
    rintro _ rest ⟨u, rfl, rfl⟩
    exact ⟨.unary u, rfl, rfl⟩
  case level =>
    intro k ts ih ihchain
    rw [operand]
    refine ih.bind ?_
    rintro _ mid hlt ⟨d, rfl, rfl⟩
    refine (ihchain _ mid hlt).bind ?_
    rintro _ rest _ ⟨c, rfl, rfl⟩
    exact .ok ⟨.level d c, by simp [Operand.tokens, Parsed.widen], rfl⟩
  case step =>
    intro k lhs o ts ho ih ihchain
    rw [chain, if_pos ho]
    refine ih.bind ?_
    rintro _ mid hlt ⟨d, rfl, rfl⟩
    refine (ihchain _ mid hlt).bind ?_
    rintro _ rest _ ⟨c, rfl, rfl⟩
    exact .ok ⟨.cons o ho d c, by simp [Chain.tokens, Parsed.widen], rfl⟩
  case stop =>
    intro k lhs ts hstop
    rw [chain_of_stop hstop]
    exact .ok ⟨.nil, rfl, rfl⟩
  case bang =>
    intro ts ih
    rw [unary]
    refine ih.bind ?_
    rintro _ rest _ ⟨u, rfl, rfl⟩
    exact .ok ⟨.other (.not u), rfl, rfl⟩
  case negative =>
    intro n ts hn
    rw [unary, if_pos hn]
    exact .ok ⟨.other (.negative n hn), rfl, rfl⟩
  case negativeRange =>
    intro n ts hn
    rw [unary, if_neg hn]
    exact .error _
  case minus =>
    intro ts hint ih
    rw [unary]
    · refine ih.bind ?_
      rintro _ rest _ ⟨u, rfl, rfl⟩
      -- A number after the minus sign would have been read with it.
      cases u with
      | number n hn => exact absurd rfl (hint n rest)
      | other u => exact .ok ⟨.other (.neg u), rfl, rfl⟩
    · exact hint
  case primary =>
    intro ts hbang hminus ih
    rw [unary]
    · exact ih
    · exact hbang
    · exact fun n rest => hminus (.int n :: rest)
    · exact hminus
  case number =>
    intro n ts hn
    rw [primary, if_pos hn]
    exact .ok ⟨.number n hn, rfl, rfl⟩
  case numberRange =>
    intro n ts hn
    rw [primary, if_neg hn]
    exact .error _
  case wordTrue =>
    intro ts
    rw [primary]
    exact .ok ⟨.other .wordTrue, rfl, rfl⟩
  case wordFalse =>
    intro ts
    rw [primary]
    exact .ok ⟨.other .wordFalse, rfl, rfl⟩
  case var =>
    intro name ts
    rw [primary]
    exact .ok ⟨.other (.var name), rfl, rfl⟩
  case paren =>
    intro ts ih
    rw [primary, ← expr, expr_eq_operand]
    refine ih.bind ?_
    rintro _ mid _ ⟨d, rfl, rfl⟩
    refine (ensures_expect _).bind ?_
    rintro _ rest _ rfl
    exact .ok ⟨.other (.paren d), by simp [Unary.tokens, Unnumbered.tokens, Parsed.widen,
      Parsed.map, Parsed.andThen], rfl⟩
  case refused =>
    intro ts hint htrue hfalse hident hparen
    rw [primary]
    · exact .error _
    all_goals assumption

theorem ensures_expr (ts : List Token) :
    Ensures (expr ts) (Derived (T := Operand levels) Operand.tokens Operand.value ts) := by
  rw [expr_eq_operand]
  exact ensures_operand_chain_unary_primary.1 levels ts

theorem ensures_assignment (ts : List Token) :
    Ensures (assignment ts) (Derived Assignment.tokens Assignment.value ts) := by
  rw [assignment]
  refine ensures_identifier.bind ?_
  rintro name _ _ rfl
  refine (ensures_expect _).bind ?_
  rintro _ _ _ rfl
  refine (ensures_expr _).bind ?_
  rintro _ rest _ ⟨e, rfl, rfl⟩
  exact .ok ⟨⟨name, e⟩, rfl, rfl⟩

theorem ensures_assignments (ts : List Token) :
    Ensures (assignments ts) (Derived Assignments.tokens Assignments.value ts) := by
  induction ts using assignments.induct with
  | case1 ts hbrace =>
    rw [assignments, if_pos hbrace]
    exact .ok ⟨.stop true, rfl, rfl⟩
  | case2 ts hbrace ih =>
    rw [assignments, if_neg hbrace]
    refine (ensures_assignment _).bind ?_
    rintro _ mid hlt ⟨a, rfl, rfl⟩
    refine (ih ⟨_, mid, hlt⟩).bind ?_
    rintro _ rest _ ⟨as, rfl, rfl⟩
    exact .ok ⟨.next a as, by simp [Assignments.tokens, Parsed.widen, Parsed.map], rfl⟩
  | case3 ts hsemicolon =>
    rw [assignments]
    · exact .ok ⟨.stop false, rfl, rfl⟩
    · exact hsemicolon

theorem ensures_action (ts : List Token) :
    Ensures (action ts) (Derived Basic.tokens Basic.value ts) := by
  unfold action
  split
  · exact .ok ⟨.skip, rfl, rfl⟩
  · refine (ensures_expect _).bind ?_
    rintro _ _ _ rfl
    refine (ensures_assignment _).bind ?_
    rintro _ _ _ ⟨a, rfl, rfl⟩
    refine (ensures_assignments _).bind ?_
    rintro _ _ _ ⟨as, rfl, rfl⟩
    refine (ensures_expect _).bind ?_
    rintro _ rest _ rfl
    exact .ok ⟨.atomic a as, by simp [Basic.tokens], rfl⟩
  · next name ts =>
    refine (ensures_expr _).bind ?_
    rintro _ rest _ ⟨e, rfl, rfl⟩
    exact .ok ⟨.assign ⟨name, e⟩, rfl, rfl⟩
  · next channel ts =>
    refine ensures_identifier.bind ?_
    rintro target rest _ rfl
    exact .ok ⟨.receive channel target, rfl, rfl⟩
  · next channel ts =>
    refine (ensures_expr _).bind ?_
    rintro _ rest _ ⟨e, rfl, rfl⟩
    exact .ok ⟨.send channel e, rfl, rfl⟩
  · exact .error _
  · exact .error _

theorem ensures_handshake (ts : List Token) :
    Ensures (handshake ts) (Derived Pair.tokens Pair.value ts) := by
  rw [handshake]
  refine (ensures_action _).bind ?_
  rintro _ _ _ ⟨a, rfl, rfl⟩
  refine (ensures_expect _).bind ?_
  rintro _ _ _ rfl
  refine (ensures_action _).bind ?_
  rintro _ rest _ ⟨b, rfl, rfl⟩
  exact .ok ⟨⟨a, b⟩, by simp [Pair.tokens, Parsed.andThen, Parsed.widen, Parsed.map], rfl⟩

/-- Options were read as far as they go, if there are any. -/
def DerivedOptions (ts : List Token) (os : List (Expr × Stmt)) (rest : List Token) : Prop :=
  os = [] ∧ ts = rest ∨ Derived Options.tokens Options.value ts os rest

theorem ensures_stmt_sequence_simple_options :
    (∀ ts, Ensures (stmt ts) (Derived Program.tokens Program.value ts)) ∧
    (∀ first ts, Ensures (sequence first ts) (Derived Sequel.tokens (·.value first) ts)) ∧
    (∀ ts, Ensures (simple ts) (Derived Simple.tokens Simple.value ts)) ∧
    ∀ ts, Ensures (options ts) (DerivedOptions ts) := by
  refine stmt.mutual_induct (fun ts => Ensures (stmt ts) (Derived Program.tokens Program.value ts))
    (fun first ts => Ensures (sequence first ts) (Derived Sequel.tokens (·.value first) ts))
    (fun ts => Ensures (simple ts) (Derived Simple.tokens Simple.value ts))
    (fun ts => Ensures (options ts) (DerivedOptions ts))
    ?stmt ?separator ?next ?stop ?choice ?loop ?action ?option ?last
  case stmt =>
    intro ts ih ihsequence
    rw [stmt]
    refine ih.bind ?_
    rintro _ mid hlt ⟨s, rfl, rfl⟩
    refine (ihsequence ⟨_, mid, hlt⟩).bind ?_
    rintro _ rest _ ⟨more, rfl, rfl⟩
    exact .ok ⟨.mk s more, by simp [Program.tokens, Parsed.widen], rfl⟩
  case separator =>
    intro first ts hends
    rw [sequence, if_pos hends]
    exact .ok ⟨.stop true, rfl, rfl⟩
  case next =>
    intro first ts hends ih ihsequence
    rw [sequence, if_neg hends]
    refine ih.bind ?_
    rintro _ mid hlt ⟨s, rfl, rfl⟩
    refine (ihsequence ⟨_, mid, hlt⟩).bind ?_
    rintro _ rest _ ⟨more, rfl, rfl⟩
    exact .ok ⟨.next s more, by simp [Sequel.tokens, Parsed.widen], rfl⟩
  case stop =>
    intro first ts hsemicolon
    rw [sequence]
    · exact .ok ⟨.stop false, rfl, rfl⟩
    · exact hsemicolon
  case choice =>
    intro ts ih
    rw [simple]
    refine ih.bind ?_
    rintro _ mid _ (⟨rfl, _⟩ | ⟨os, rfl, rfl⟩)
    · exact .error _
    · rw [if_neg (by simpa using os.value_ne_nil)]
      refine (ensures_expect _).bind ?_
      rintro _ rest _ rfl
      exact .ok ⟨.choice os, by simp [Simple.tokens], rfl⟩
  case loop =>
    intro ts ih
    rw [simple]
    refine ih.bind ?_
    rintro _ mid _ (⟨rfl, _⟩ | ⟨os, rfl, rfl⟩)
    · exact .error _
    · rw [if_neg (by simpa using os.value_ne_nil)]
      refine (ensures_expect _).bind ?_
      rintro _ rest _ rfl
      exact .ok ⟨.loop os, by simp [Simple.tokens], rfl⟩
  case action =>
    intro ts hif hdo
    rw [simple]
    · refine (ensures_action _).bind ?_
      rintro _ rest _ ⟨a, rfl, rfl⟩
      exact .ok ⟨.basic a, rfl, rfl⟩
    · exact hif
    · exact hdo
  case option =>
    intro ts ih ihoptions
    rw [options]
    refine (ensures_expr _).bind ?_
    rintro _ mid hlt ⟨guard, rfl, rfl⟩
    refine (ensures_expect _).bind ?_
    rintro _ ts hlt' rfl
    refine (ih ⟨_, _, hlt⟩ ⟨(), ts, hlt'⟩).bind ?_
    rintro _ mid' hlt'' ⟨body, rfl, rfl⟩
    refine (ihoptions ⟨_, _, hlt⟩ ⟨(), _, hlt'⟩ ⟨_, mid', hlt''⟩).bind ?_
    rintro _ rest _ (⟨rfl, rfl⟩ | ⟨os, rfl, rfl⟩)
    · exact .ok (.inr ⟨.last (.mk guard body), by simp [Options.tokens, Branch.tokens], rfl⟩)
    · exact .ok (.inr ⟨.next (.mk guard body) os, by simp [Options.tokens, Branch.tokens], rfl⟩)
  case last =>
    intro ts hcolons
    rw [options]
    · exact .ok (.inl ⟨rfl, rfl⟩)
    · exact hcolons

theorem whole_eq_ok_iff {α : Type} {reader : (ts : List Token) → Reading α ts.length}
    {source : String} {v : α} :
    whole reader source = .ok v ↔
      ∃ lexemes, Lexeme.lex source = .ok lexemes ∧ Yields (reader (lexemes.map Lexeme.token)) v [] := by
  constructor
  · intro h
    cases hlex : Lexeme.lex source with
    | error e =>
      rw [whole, hlex] at h
      cases h
    | ok lexemes =>
      rw [whole, bind_of_eq_ok hlex] at h
      refine ⟨lexemes, rfl, ?_⟩
      cases hread : reader (lexemes.map Lexeme.token) with
      | error e =>
        rw [hread] at h
        cases h
      | ok p =>
        obtain ⟨value, rest, hlt⟩ := p
        rw [bind_of_eq_ok hread] at h
        cases rest with
        | nil =>
          cases h
          exact ⟨hlt, rfl⟩
        | cons t rest => cases h
  · rintro ⟨lexemes, hlex, _, hread⟩
    rw [whole, bind_of_eq_ok hlex, bind_of_eq_ok hread]
    rfl

end Parser

/-- A kind of phrase: its derivations, with the tokens they derive and the values they stand for. -/
structure Phrase (α : Type) where
  Tree : Type
  tokens : Tree → List Token
  value : Tree → α

namespace Phrase

def expressions : Phrase Expr := ⟨Operand levels, Operand.tokens, Operand.value⟩

def actions : Phrase Action := ⟨Basic, Basic.tokens, Basic.value⟩

def handshakes : Phrase (Action × Action) := ⟨Pair, Pair.tokens, Pair.value⟩

def statements : Phrase Stmt := ⟨Program, Program.tokens, Program.value⟩

variable {α : Type}

/-- The text is cut into the tokens of the derivation. -/
def Covers (p : Phrase α) (source : String) (d : p.Tree) : Prop :=
  ∃ lexemes, Lexeme.lex source = .ok lexemes ∧ lexemes.map Lexeme.token = p.tokens d

/-- The parser accepts the texts that have a derivation, which is unique, as what it stands for. -/
structure IsReadBy (p : Phrase α) (parse : String → Except ParseError α) : Prop where
  accepts : ∀ source v, parse source = .ok v ↔ ∃ d, p.Covers source d ∧ p.value d = v
  unique : ∀ source d d', p.Covers source d → p.Covers source d' → d = d'

/-- It is enough to know the reader in front of the tokens that may follow the phrase. -/
theorem isReadBy_whole {p : Phrase α} {reader : (ts : List Token) → Reading α ts.length}
    {F : List Token → Prop} (hend : F [])
    (hyields : ∀ d rest, F rest → Yields (reader (p.tokens d ++ rest)) (p.value d) rest)
    (hderived : ∀ ts, Ensures (reader ts) (Derived p.tokens p.value ts))
    (hunique : ∀ d d' rest rest', F rest → F rest' →
      p.tokens d ++ rest = p.tokens d' ++ rest' → d = d' ∧ rest = rest') :
    p.IsReadBy (whole reader) where
  accepts source v := by
    rw [whole_eq_ok_iff]
    constructor
    · rintro ⟨lexemes, hlex, hread⟩
      obtain ⟨d, htokens, hvalue⟩ := hderived _ v [] hread
      rw [List.append_nil] at htokens
      exact ⟨d, ⟨lexemes, hlex, htokens⟩, hvalue⟩
    · rintro ⟨d, ⟨lexemes, hlex, htokens⟩, rfl⟩
      have hread := hyields d [] hend
      rw [List.append_nil, ← htokens] at hread
      exact ⟨lexemes, hlex, hread⟩
  unique source d d' := by
    rintro ⟨lexemes, hlex, htokens⟩ ⟨lexemes', hlex', htokens'⟩
    cases hlex.symm.trans hlex'
    exact (hunique d d' [] [] hend hend (by rw [← htokens, ← htokens'])).1

theorem isReadBy_parse :
    statements.IsReadBy Stmt.parse ∧ expressions.IsReadBy Expr.parse ∧
      actions.IsReadBy Action.parse ∧ handshakes.IsReadBy Action.parsePair := by
  have hend : NoOperator levels [] := noOperator_nil levels
  refine ⟨?_, ?_, ?_, ?_⟩
  · exact isReadBy_whole (F := fun rest => endsStmt rest = true) rfl
      (fun d _ => Program.yields d) ensures_stmt_sequence_simple_options.1
      fun d d' _ _ => Program.unique d d'
  · exact isReadBy_whole hend (fun d _ => Operand.yields_expr d) ensures_expr
      fun d d' _ _ => Operand.unique d d'
  · exact isReadBy_whole hend (fun d _ => Basic.yields d) ensures_action
      fun d d' _ _ => Basic.unique d d'
  · exact isReadBy_whole hend (fun d _ => Pair.yields d) ensures_handshake
      fun d d' _ _ => Pair.unique d d'

end Phrase

/-- The operand of `n` more levels that has no operators there. -/
def Grammar.Operand.widen {k : Nat} (d : Operand k) : (n : Nat) → Operand (k + n)
  | 0 => d
  | n + 1 => .level (d.widen n) .nil

/-- Two differences, the first of them on the left. Neither sign belongs to a number. -/
def Grammar.difference : Operand levels :=
  Operand.widen (.level (Operand.widen (.unary (.other (.var "x"))) 1)
    (.cons .sub rfl (Operand.widen (.unary (.number 1 (by decide))) 1)
      (.cons .sub rfl (Operand.widen (.unary (.other (.var "y"))) 1) .nil))) 3

theorem Phrase.parse_difference_isReadBy :
    expressions.Covers "x-1-y" difference ∧ (∀ d, expressions.Covers "x-1-y" d → d = difference) ∧
      Expr.parse "x-1-y" =
        .ok (.binary .sub (.binary .sub (.var "x") (.int 1)) (.var "y")) := by
  have hlexes : Lexeme.Lexes ['x', '-', '1', '-', 'y']
      [.ident "x", .op .sub, .int 1, .op .sub, .ident "y"] := by
    refine .of_scan (n := 0) (by decide) (by decide) rfl ?_
    refine .of_scan (n := 0) (by decide) (by decide) rfl ?_
    refine .of_scan (n := 0) (by decide) (by decide) rfl ?_
    refine .of_scan (n := 0) (by decide) (by decide) rfl ?_
    exact .of_scan (n := 0) (by decide) (by decide) rfl Lexeme.lexes_nil
  have hcovers : expressions.Covers "x-1-y" difference := hlexes 0
  obtain ⟨_, hread, _, _⟩ := isReadBy_parse
  exact ⟨hcovers, fun d hd => hread.unique _ d _ hd hcovers,
    (hread.accepts _ _).mpr ⟨_, hcovers, rfl⟩⟩

end OmegaCheck
