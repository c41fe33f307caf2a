import OmegaCheck.Proofs.Program.Scanner

/-!
# What the readers look at

Every reader of the grammar stops in front of the first token that its phrase cannot go on with. For
each of them there is an equation that says which readers it calls one after the other, and what it
has taken is completed along the derivation that it is about to make.
-/

namespace OmegaCheck.Parser

open Grammar

section Expressions

variable {k : Nat} {lhs : Expr} {ts : List Token}

theorem canEnd_unary (ts : List Token)
    (h : ∀ w, Formed Unnumbered.tokens w → Formed Unary.tokens (ts ++ w)) :
    CanEnd (Formed Unary.tokens) ts :=
  ⟨[.ident "x"], by simpa using spellable_x, h _ ⟨.var "x", rfl⟩⟩

theorem canEnd_operand (k : Nat) : CanEnd (Formed (T := Operand k) Operand.tokens) [] := by
  refine ⟨[.ident "x"], by simpa using spellable_x, ?_⟩
  induction k with
  | zero => exact ⟨.unary (.other (.var "x")), rfl⟩
  | succ k ih =>
    obtain ⟨d, hd⟩ := ih
    exact ⟨.level d .nil, by rw [Operand.tokens, hd]; rfl⟩

theorem canEnd_chain (k : Nat) : CanEnd (Formed (T := Chain k) Chain.tokens) [] :=
  ⟨[], by simp, .nil, rfl⟩

theorem outcome_unary_bang :
    outcome (unary (.bang :: ts)) =
      followed (outcome (unary ts)) fun e mid => .ok (.not e, mid) := by
  rw [unary]
  exact outcome_bind fun p => rfl

theorem outcome_unary_minus (h : ∀ n, ts.head? ≠ some (.int n)) :
    outcome (unary (.op .sub :: ts)) =
      followed (outcome (unary ts)) fun e mid => .ok (.neg e, mid) := by
  rw [unary]
  · exact outcome_bind fun p => rfl
  · rintro n rest rfl
    exact h n rfl

theorem outcome_unary_primary (hbang : ts.head? ≠ some .bang)
    (hminus : ts.head? ≠ some (.op .sub)) : outcome (unary ts) = outcome (primary ts) := by
  rw [unary]
  · rintro rest rfl
    exact hbang rfl
  · rintro n rest rfl
    exact hminus rfl
  · rintro rest rfl
    exact hminus rfl

theorem outcome_primary_paren :
    outcome (primary (.leftParen :: ts)) =
      followed (outcome (operand levels ts)) fun e mid =>
        followed (outcome (expect .rightParen mid)) fun _ mid => .ok (e, mid) := by
  rw [primary, ← expr, expr_eq_operand]
  refine outcome_bind fun p => ?_
  exact outcome_bind fun q => rfl

/-- Without a number in front, what was read or can be completed does not begin with one. -/
theorem ReadsAt.unnumbered {R : Scanner Expr} (h : ReadsAt R (Formed Unary.tokens) ts)
    (hint : ∀ n, ts.head? ≠ some (.int n)) : ReadsAt R (Formed Unnumbered.tokens) ts := by
  cases h with
  | ok front rest v hts hread hfront =>
    obtain ⟨d, rfl⟩ := hfront
    cases d with
    | number n hn => exact absurd (congrArg List.head? hts) (hint n)
    | other u => exact .ok _ rest v hts hread ⟨u, rfl⟩
  | error front rest reason hts hread hfront =>
    refine .error front rest reason hts hread ?_
    obtain ⟨more, hmore, d, hd⟩ := hfront
    cases front with
    | nil => exact ⟨[.ident "x"], by simpa using spellable_x, .var "x", rfl⟩
    | cons t front =>
      cases d with
      | number n hn =>
        obtain rfl : .int n = t := (List.cons.inj hd).1
        exact absurd (congrArg List.head? hts) (hint n)
      | other u => exact ⟨more, hmore, u, hd⟩

theorem readsAt_operand_chain_unary_primary :
    (∀ k ts, ReadsAt (fun ts => outcome (operand k ts)) (Formed (T := Operand k) Operand.tokens)
      ts) ∧
    (∀ k lhs ts, ReadsAt (fun ts => outcome (chain k lhs ts))
      (Formed (T := Chain k) Chain.tokens) ts) ∧
    (∀ ts, ReadsAt (fun ts => outcome (unary ts)) (Formed Unary.tokens) ts) ∧
    ∀ ts, ReadsAt (fun ts => outcome (primary ts)) (Formed Unary.tokens) ts := by
  refine operand_induct
    ?tightest ?level ?step ?stop ?bang ?negative ?negativeRange ?minus ?primary ?number ?numberRange
    ?wordTrue ?wordFalse ?var ?paren ?refused
  -- Where a reader stops, the token that it looked at decides.
  case tightest =>
    intro ts ih
    refine ih.congr (fun us _ => by rw [operand]) ?_
    rintro _ ⟨u, rfl⟩
    exact ⟨.unary u, rfl⟩
  case level =>
    intro k ts ih ihchain
    refine ih.bind (fun us _ => outcome_operand_succ) ?_ (canEnd_chain k) ?_
    · intro v mid hread
      exact ihchain v mid (length_lt_of_outcome hread)
    · rintro _ _ ⟨d, rfl⟩ ⟨c, rfl⟩
      exact ⟨.level d c, rfl⟩
  case step =>
    intro k lhs o ts ho ih ihchain
    refine (ih.before (fun v mid hread => ?_) (canEnd_chain k)).cons
      (fun us _ => outcome_chain_step ho) ?_
    · exact ihchain v mid (length_lt_of_outcome hread)
    · rintro _ ⟨_, _, ⟨d, rfl⟩, ⟨c, rfl⟩, rfl⟩
      exact ⟨.cons o ho d c, rfl⟩
  case stop =>
    intro k lhs ts hstop
    refine readsAt_nothing (v := lhs) (fun us hus => ?_) ⟨.nil, rfl⟩
    rw [chain_of_stop (by rwa [hus])]
    rfl
  case bang =>
    intro ts ih
    refine (ih.returning Expr.not).cons (fun us _ => outcome_unary_bang) ?_
    rintro _ ⟨u, rfl⟩
    exact ⟨.other (.not u), rfl⟩
  case negative =>
    intro n ts hn
    refine .ok [.op .sub, .int n] ts (.int (Int64.ofInt (-n))) rfl (fun us _ => ?_)
      ⟨.other (.negative n hn), rfl⟩
    exact outcome_eq_ok_iff.mpr (Expr.yields_minus_literal hn us)
  case negativeRange =>
    -- The sign alone can be completed, so it is the number behind it that is refused.
    intro n ts hn
    refine .error [.op .sub] (.int n :: ts) (.outOfRange true n) rfl (fun us hus => ?_) ?_
    · obtain ⟨rest, rfl⟩ := List.head?_eq_some_iff.mp hus
      rw [outcome_eq_error_iff, List.singleton_append, unary, if_neg hn]
    · apply canEnd_unary
      rintro _ ⟨u, rfl⟩
      exact ⟨.other (.neg u), rfl⟩
  case minus =>
    intro ts hint ih
    have hint' (n : Nat) := head?_ne_of_ne_cons (hint n)
    refine ((ih.unnumbered hint').returning Expr.neg).cons
      (fun us hus => outcome_unary_minus (by rwa [hus])) ?_
    rintro _ ⟨u, rfl⟩
    exact ⟨.other (.neg u), rfl⟩
  case primary =>
    intro ts hbang hminus ih
    refine ih.congr (fun us hus => outcome_unary_primary ?_ ?_) fun _ => id
    · rw [hus]
      exact head?_ne_of_ne_cons hbang
    · rw [hus]
      exact head?_ne_of_ne_cons hminus
  case number =>
    intro n ts hn
    refine readsAt_token (v := .int (Int64.ofNat n)) (fun us => ?_) ⟨.number n hn, rfl⟩
    rw [primary, if_pos hn]
    rfl
  case numberRange =>
    intro n ts hn
    refine readsAt_refused_cons (.outOfRange false n) (fun us => ?_) ?_
    · rw [outcome_eq_error_iff, primary, if_neg hn]
    · apply canEnd_unary
      rintro _ ⟨u, rfl⟩
      exact ⟨.other u, rfl⟩
  case wordTrue =>
    intro ts
    refine readsAt_token (v := .bool true) (fun us => ?_) ⟨.other .wordTrue, rfl⟩
    rw [primary]
    rfl
  case wordFalse =>
    intro ts
    refine readsAt_token (v := .bool false) (fun us => ?_) ⟨.other .wordFalse, rfl⟩
    rw [primary]
    rfl
  case var =>
    intro name ts
    refine readsAt_token (v := .var name) (fun us => ?_) ⟨.other (.var name), rfl⟩
    rw [primary]
    rfl
  case paren =>
    intro ts ih
    refine (ih.before (fun e mid _ => (readsAt_expect .rightParen trivial mid).returning fun _ => e)
      (canEnd_token .rightParen trivial)).cons (fun us _ => outcome_primary_paren) ?_
    rintro _ ⟨_, _, ⟨d, rfl⟩, rfl, rfl⟩
    exact ⟨.other (.paren d), rfl⟩
  case refused =>
    intro ts hint htrue hfalse hident hparen
    refine readsAt_refused (.expected .expression) (fun us hus => ?_) ?_
    · rw [outcome_eq_error_iff, primary]
      · rfl
      · exact fun n => ne_cons_of_head?_eq hus (hint n)
      · exact ne_cons_of_head?_eq hus htrue
      · exact ne_cons_of_head?_eq hus hfalse
      · exact fun name => ne_cons_of_head?_eq hus (hident name)
      · exact ne_cons_of_head?_eq hus hparen
    · apply canEnd_unary
      rintro _ ⟨u, rfl⟩
      exact ⟨.other u, rfl⟩

theorem readsAt_expr (ts : List Token) :
    ReadsAt (fun ts => outcome (expr ts)) (Formed (T := Operand levels) Operand.tokens) ts := by
  simp only [expr_eq_operand]
  exact readsAt_operand_chain_unary_primary.1 levels ts

end Expressions

section Actions

variable {ts : List Token}

theorem outcome_assignment :
    outcome (assignment ts) =
      followed (outcome (identifier ts)) fun name mid =>
        followed (outcome (expect .assign mid)) fun _ mid =>
          followed (outcome (expr mid)) fun e mid => .ok ((name, e), mid) := by
  rw [assignment]
  refine outcome_bind fun x => ?_
  refine outcome_bind fun y => ?_
  exact outcome_bind fun z => rfl

theorem readsAt_assignment (ts : List Token) :
    ReadsAt (fun ts => outcome (assignment ts)) (Formed Assignment.tokens) ts := by
  have hsign (name : String) (mid : List Token) :=
    (readsAt_expect .assign trivial mid).before
      (fun _ mid _ => (readsAt_expr mid).returning fun e => (name, e)) (canEnd_operand levels)
  refine ((readsAt_identifier ts).before (fun name mid _ => hsign name mid)
    ((canEnd_token .assign trivial).before (canEnd_operand levels))).congr
    (fun us _ => outcome_assignment) ?_
  rintro _ ⟨_, _, ⟨name, rfl⟩, ⟨_, _, rfl, ⟨e, rfl⟩, rfl⟩, rfl⟩
  exact ⟨⟨name, e⟩, rfl⟩

theorem outcome_assignments_next (h : ts.head? ≠ some .rightBrace) :
    outcome (assignments (.semicolon :: ts)) =
      followed (outcome (assignment ts)) fun a mid =>
        followed (outcome (assignments mid)) fun as mid => .ok (a :: as, mid) := by
  rw [assignments, if_neg h]
  refine outcome_bind fun x => ?_
  exact outcome_bind fun y => rfl

theorem canEnd_assignments : CanEnd (Formed Assignments.tokens) [] :=
  ⟨[], by simp, .stop false, rfl⟩

theorem readsAt_assignments (ts : List Token) :
    ReadsAt (fun ts => outcome (assignments ts)) (Formed Assignments.tokens) ts := by
  induction ts using assignments.induct with
  | case1 ts hbrace =>
    refine .ok [.semicolon] ts [] rfl (fun us hus => ?_) ⟨.stop true, rfl⟩
    rw [List.singleton_append, assignments, if_pos (hus.trans hbrace)]
    rfl
  | case2 ts hbrace ih =>
    refine ((readsAt_assignment ts).before (fun a mid hread => ?_) canEnd_assignments).cons
      (fun us hus => outcome_assignments_next (hus ▸ hbrace)) ?_
    · obtain ⟨hlt, _⟩ := outcome_eq_ok_iff.mp hread
      exact (ih ⟨a, mid, hlt⟩).returning (a :: ·)
    · rintro _ ⟨_, _, ⟨a, rfl⟩, ⟨as, rfl⟩, rfl⟩
      exact ⟨.next a as, rfl⟩
  | case3 ts hsemicolon =>
    refine readsAt_nothing (v := []) (fun us hus => ?_) ⟨.stop false, rfl⟩
    rw [assignments]
    · rfl
    · exact ne_cons_of_head?_eq hus hsemicolon

theorem outcome_action_atomic :
    outcome (action (.wordAtomic :: ts)) =
      followed (outcome (expect .leftBrace ts)) fun _ mid =>
        followed (outcome (assignment mid)) fun a mid =>
          followed (outcome (assignments mid)) fun as mid =>
            followed (outcome (expect .rightBrace mid)) fun _ mid =>
              .ok (.atomic (a :: as), mid) := by
  rw [action]
  refine outcome_bind fun x => ?_
  refine outcome_bind fun y => ?_
  refine outcome_bind fun z => ?_
  exact outcome_bind fun w => rfl

theorem outcome_action_assign {name : String} :
    outcome (action (.ident name :: .assign :: ts)) =
      followed (outcome (expr ts)) fun e mid => .ok (.assign name e, mid) := by
  rw [action]
  exact outcome_bind fun x => rfl

theorem outcome_action_receive {channel : String} :
    outcome (action (.ident channel :: .question :: ts)) =
      followed (outcome (identifier ts)) fun target mid => .ok (.receive channel target, mid) := by
  rw [action]
  exact outcome_bind fun x => rfl

theorem outcome_action_send {channel : String} :
    outcome (action (.ident channel :: .bang :: ts)) =
      followed (outcome (expr ts)) fun e mid => .ok (.send channel e, mid) := by
  rw [action]
  exact outcome_bind fun x => rfl

theorem readsAt_action_atomic (ts : List Token) :
    ReadsAt (fun ts => outcome (action ts)) (Formed Basic.tokens) (.wordAtomic :: ts) := by
  have hclose (as : List (String × Expr)) (mid : List Token) :=
    (readsAt_expect .rightBrace trivial mid).returning fun _ => Action.atomic as
  have hmore (a : String × Expr) (mid : List Token) := (readsAt_assignments mid).before
    (fun as mid _ => hclose (a :: as) mid) (canEnd_token .rightBrace trivial)
  have hend := canEnd_assignments.before (canEnd_token .rightBrace trivial)
  have hfirst (mid : List Token) := (readsAt_assignment mid).before
    (fun a mid _ => hmore a mid) hend
  have hopen := (readsAt_expect .leftBrace trivial ts).before (fun _ mid _ => hfirst mid)
    ((readsAt_assignment []).canEnd.before hend)
  refine hopen.cons (fun us _ => outcome_action_atomic) ?_
  rintro _ ⟨_, _, rfl, ⟨_, _, ⟨a, rfl⟩, ⟨_, _, ⟨as, rfl⟩, rfl, rfl⟩, rfl⟩, rfl⟩
  exact ⟨.atomic a as, rfl⟩

/-- Behind a name, the next token tells what is done with it. -/
theorem readsAt_action_ident (name : String) (ts : List Token) :
    ReadsAt (fun ts => outcome (action (.ident name :: ts)))
      (fun w => Formed Basic.tokens (.ident name :: w)) ts := by
  have hend : CanEnd (fun w => Formed Basic.tokens (.ident name :: w)) [] :=
    ⟨[.question, .ident "x"], by simpa [Token.Spellable] using spellable_x, .receive name "x", rfl⟩
  cases ts with
  | nil => exact readsAt_refused_nil (.expected .operation) rfl hend
  | cons t ts =>
    cases t with
    | assign =>
      refine ((readsAt_expr ts).returning (Action.assign name)).cons
        (fun us _ => outcome_action_assign) ?_
      rintro _ ⟨e, rfl⟩
      exact ⟨.assign ⟨name, e⟩, rfl⟩
    | question =>
      refine ((readsAt_identifier ts).returning (Action.receive name)).cons
        (fun us _ => outcome_action_receive) ?_
      rintro _ ⟨target, rfl⟩
      exact ⟨.receive name target, rfl⟩
    | bang =>
      refine ((readsAt_expr ts).returning (Action.send name)).cons
        (fun us _ => outcome_action_send) ?_
      rintro _ ⟨e, rfl⟩
      exact ⟨.send name e, rfl⟩
    | _ => exact readsAt_refused_cons (.expected .operation) (fun _ => rfl) hend

theorem readsAt_action (ts : List Token) :
    ReadsAt (fun ts => outcome (action ts)) (Formed Basic.tokens) ts := by
  have hend : CanEnd (Formed Basic.tokens) [] :=
    ⟨[.wordSkip], by simp [Token.Spellable], .skip, rfl⟩
  cases ts with
  | nil => exact readsAt_refused_nil (.expected .statement) rfl hend
  | cons t ts =>
    cases t with
    | wordSkip => exact readsAt_token (fun _ => rfl) ⟨.skip, rfl⟩
    | wordAtomic => exact readsAt_action_atomic ts
    | ident name => exact (readsAt_action_ident name ts).cons (fun _ _ => rfl) fun _ => id
    | _ => exact readsAt_refused_cons (.expected .statement) (fun _ => rfl) hend

theorem outcome_handshake :
    outcome (handshake ts) =
      followed (outcome (action ts)) fun a mid =>
        followed (outcome (expect .bar mid)) fun _ mid =>
          followed (outcome (action mid)) fun b mid => .ok ((a, b), mid) := by
  rw [handshake]
  refine outcome_bind fun x => ?_
  refine outcome_bind fun y => ?_
  exact outcome_bind fun z => rfl

theorem readsAt_handshake (ts : List Token) :
    ReadsAt (fun ts => outcome (handshake ts)) (Formed Pair.tokens) ts := by
  have hend := (readsAt_action []).canEnd
  have hbar (a : Action) (mid : List Token) := (readsAt_expect .bar trivial mid).before
    (fun _ mid _ => (readsAt_action mid).returning fun b => (a, b)) hend
  refine ((readsAt_action ts).before (fun a mid _ => hbar a mid)
    ((canEnd_token .bar trivial).before hend)).congr (fun us _ => outcome_handshake) ?_
  rintro _ ⟨_, _, ⟨a, rfl⟩, ⟨_, _, rfl, ⟨b, rfl⟩, rfl⟩, rfl⟩
  exact ⟨⟨a, b⟩, rfl⟩

end Actions

section Statements

variable {ts : List Token} {first : Stmt}

theorem endsStmt_congr {us : List Token} (h : us.head? = ts.head?) : endsStmt us = endsStmt ts := by
  cases us with
  | nil => rw [List.head?_eq_none_iff.mp h.symm]
  | cons t us =>
    obtain ⟨rest, rfl⟩ := List.head?_eq_some_iff.mp h.symm
    rfl

theorem outcome_stmt :
    outcome (stmt ts) =
      followed (outcome (simple ts)) fun s mid => outcome (sequence s mid) := by
  rw [stmt]
  refine outcome_bind fun p => ?_
  cases sequence p.value p.rest <;> rfl

theorem outcome_sequence_step (h : endsStmt ts = false) :
    outcome (sequence first (.semicolon :: ts)) =
      followed (outcome (simple ts)) fun s mid => outcome (sequence (.seq first s) mid) := by
  rw [sequence, if_neg (by rw [h]; exact Bool.false_ne_true)]
  refine outcome_bind fun p => ?_
  cases sequence (.seq first p.value) p.rest <;> rfl

theorem outcome_simple_action (hif : ts.head? ≠ some .wordIf) (hdo : ts.head? ≠ some .wordDo) :
    outcome (simple ts) =
      followed (outcome (action ts)) fun a mid => .ok (.basic a, mid) := by
  rw [simple]
  · exact outcome_bind fun p => rfl
  · rintro rest rfl
    exact hif rfl
  · rintro rest rfl
    exact hdo rfl

/-- The options of a choice or a loop, which must not be missing. -/
def someOptions (ts : List Token) : Except Refusal (List (Expr × Stmt) × List Token) :=
  followed (outcome (options ts)) fun os mid =>
    if os.isEmpty then .error ⟨.expected (.token .doubleColon), mid⟩ else .ok (os, mid)

theorem outcome_block {m n : Nat} {close : Token} {build : List (Expr × Stmt) → Stmt}
    {r : Reading (List (Expr × Stmt)) m}
    {f : (opts : Parsed (List (Expr × Stmt)) m) → Parsed Unit opts.rest.length → Parsed Stmt n}
    (hf : ∀ opts c, (f opts c).value = build opts.value ∧ (f opts c).rest = c.rest) :
    outcome (do
        let opts ← r
        if opts.value.isEmpty then refuse (.token .doubleColon) opts.rest
        else do
          let c ← expect close opts.rest
          return f opts c) =
      followed (followed (outcome r) fun os mid =>
          if os.isEmpty then .error ⟨.expected (.token .doubleColon), mid⟩ else .ok (os, mid))
        fun os mid => followed (outcome (expect close mid)) fun _ mid => .ok (build os, mid) := by
  cases r with
  | error e => rfl
  | ok opts =>
    change outcome (if opts.value.isEmpty then refuse (.token .doubleColon) opts.rest else do
      let c ← expect close opts.rest
      return f opts c) = followed (if opts.value.isEmpty then _ else .ok (opts.value, opts.rest)) _
    split
    · rfl
    · change outcome (expect close opts.rest >>= fun c => pure (f opts c)) =
        followed (outcome (expect close opts.rest)) fun _ mid => .ok (build opts.value, mid)
      refine outcome_bind fun c => ?_
      rw [← (hf opts c).1, ← (hf opts c).2]
      rfl

theorem outcome_simple_choice :
    outcome (simple (.wordIf :: ts)) =
      followed (someOptions ts) fun os mid =>
        followed (outcome (expect .wordFi mid)) fun _ mid => .ok (.choice os, mid) := by
  rw [simple]
  exact outcome_block fun _ _ => ⟨rfl, rfl⟩

theorem outcome_simple_loop :
    outcome (simple (.wordDo :: ts)) =
      followed (someOptions ts) fun os mid =>
        followed (outcome (expect .wordOd mid)) fun _ mid => .ok (.loop os, mid) := by
  rw [simple]
  exact outcome_block fun _ _ => ⟨rfl, rfl⟩

theorem outcome_options_cons :
    outcome (options (.doubleColon :: ts)) =
      followed (outcome (expr ts)) fun g mid =>
        followed (outcome (expect .arrow mid)) fun _ mid =>
          followed (outcome (stmt mid)) fun s mid =>
            followed (outcome (options mid)) fun os mid => .ok ((g, s) :: os, mid) := by
  rw [options]
  refine outcome_bind fun x => ?_
  refine outcome_bind fun y => ?_
  refine outcome_bind fun z => ?_
  exact outcome_bind fun w => rfl

/-- As many options as there are. -/
def FormedOptions (w : List Token) : Prop := w = [] ∨ Formed Options.tokens w

theorem canEnd_stmt : CanEnd (Formed Program.tokens) [] :=
  ⟨[.wordSkip], by simp [Token.Spellable], .mk (.basic .skip) (.stop false), rfl⟩

theorem canEnd_sequence : CanEnd (Formed Sequel.tokens) [] :=
  ⟨[], by simp, .stop false, rfl⟩

theorem canEnd_formedOptions : CanEnd FormedOptions [] :=
  ⟨[], by simp, .inl rfl⟩

theorem canEnd_options : CanEnd (Formed Options.tokens) [] := by
  obtain ⟨more, hmore, hbranch⟩ := (canEnd_token .doubleColon trivial).before
    ((canEnd_operand levels).before ((canEnd_token .arrow trivial).before canEnd_stmt))
  obtain ⟨_, _, rfl, ⟨_, _, ⟨g, rfl⟩, ⟨_, _, rfl, ⟨d, rfl⟩, rfl⟩, rfl⟩, hwords⟩ := hbranch
  exact ⟨more, hmore, .last (.mk g d), hwords⟩

theorem readsAt_someOptions (h : ReadsAt (fun ts => outcome (options ts)) FormedOptions ts) :
    ReadsAt someOptions (Formed Options.tokens) ts := by
  cases h with
  | ok front rest os hts hread hfront =>
    subst hts
    have hderived := ensures_stmt_sequence_simple_options.2.2.2 _ os rest
      (outcome_eq_ok_iff.mp (hread rest rfl))
    -- A choice without options is refused where the first one was expected.
    rcases hderived with ⟨rfl, hnone⟩ | ⟨d, htokens, rfl⟩
    · obtain rfl : front = [] := List.append_left_eq_self.mp hnone
      refine .error [] rest (.expected (.token .doubleColon)) rfl (fun us hus => ?_) canEnd_options
      rw [someOptions, hread us hus]
      rfl
    · refine .ok front rest d.value rfl (fun us hus => ?_)
        ⟨d, (List.append_cancel_right htokens).symm⟩
      rw [someOptions, hread us hus]
      exact if_neg (by simpa using d.value_ne_nil)
  | error front rest reason hts hread hfront =>
    refine .error front rest reason hts (fun us hus => ?_) ?_
    · rw [someOptions, hread us hus]
      rfl
    · obtain ⟨more, hmore, hnone | hsome⟩ := hfront
      · obtain ⟨rfl, rfl⟩ := List.append_eq_nil_iff.mp hnone
        exact canEnd_options
      · exact ⟨more, hmore, hsome⟩

theorem readsAt_block {word : Token} {build : List (Expr × Stmt) → Stmt} (close : Token)
    (hclose : close.Spellable) (h : ReadsAt (fun ts => outcome (options ts)) FormedOptions ts)
    (hsimple : ∀ us, outcome (simple (word :: us)) = followed (someOptions us) fun os mid =>
      followed (outcome (expect close mid)) fun _ mid => .ok (build os, mid))
    (hformed : ∀ os : Options, Formed Simple.tokens (word :: (os.tokens ++ [close]))) :
    ReadsAt (fun ts => outcome (simple ts)) (Formed Simple.tokens) (word :: ts) := by
  refine ((readsAt_someOptions h).before
    (fun os mid _ => (readsAt_expect close hclose mid).returning fun _ => build os)
    (canEnd_token close hclose)).cons (fun us _ => hsimple us) ?_
  rintro _ ⟨_, _, ⟨os, rfl⟩, rfl, rfl⟩
  exact hformed os

theorem readsAt_stmt_sequence_simple_options :
    (∀ ts, ReadsAt (fun ts => outcome (stmt ts)) (Formed Program.tokens) ts) ∧
    (∀ first ts, ReadsAt (fun ts => outcome (sequence first ts)) (Formed Sequel.tokens) ts) ∧
    (∀ ts, ReadsAt (fun ts => outcome (simple ts)) (Formed Simple.tokens) ts) ∧
    ∀ ts, ReadsAt (fun ts => outcome (options ts)) FormedOptions ts := by
  refine stmt.mutual_induct
    (fun ts => ReadsAt (fun ts => outcome (stmt ts)) (Formed Program.tokens) ts)
    (fun first ts => ReadsAt (fun ts => outcome (sequence first ts)) (Formed Sequel.tokens) ts)
    (fun ts => ReadsAt (fun ts => outcome (simple ts)) (Formed Simple.tokens) ts)
    (fun ts => ReadsAt (fun ts => outcome (options ts)) FormedOptions ts)
    ?stmt ?separator ?next ?stop ?choice ?loop ?action ?option ?last
  case stmt =>
    intro ts ih ihsequence
    refine ih.bind (fun us _ => outcome_stmt) ?_ canEnd_sequence ?_
    · intro s mid hread
      obtain ⟨hlt, _⟩ := outcome_eq_ok_iff.mp hread
      exact ihsequence ⟨s, mid, hlt⟩
    · rintro _ _ ⟨d, rfl⟩ ⟨more, rfl⟩
      exact ⟨.mk d more, rfl⟩
  case separator =>
    intro first ts hends
    refine .ok [.semicolon] ts first rfl (fun us hus => ?_) ⟨.stop true, rfl⟩
    rw [List.singleton_append, sequence, if_pos (by rwa [endsStmt_congr hus])]
    rfl
  case next =>
    intro first ts hends ih ihsequence
    rw [Bool.not_eq_true] at hends
    refine (ih.before (fun s mid hread => ?_) canEnd_sequence).cons
      (fun us hus => outcome_sequence_step (by rwa [endsStmt_congr hus])) ?_
    · obtain ⟨hlt, _⟩ := outcome_eq_ok_iff.mp hread
      exact ihsequence ⟨s, mid, hlt⟩
    · rintro _ ⟨_, _, ⟨d, rfl⟩, ⟨more, rfl⟩, rfl⟩
      exact ⟨.next d more, rfl⟩
  case stop =>
    intro first ts hsemicolon
    refine readsAt_nothing (v := first) (fun us hus => ?_) ⟨.stop false, rfl⟩
    rw [sequence]
    · rfl
    · exact ne_cons_of_head?_eq hus hsemicolon
  case choice =>
    intro ts ih
    exact readsAt_block .wordFi trivial ih (fun us => outcome_simple_choice)
      fun os => ⟨.choice os, rfl⟩
  case loop =>
    intro ts ih
    exact readsAt_block .wordOd trivial ih (fun us => outcome_simple_loop)
      fun os => ⟨.loop os, rfl⟩
  case action =>
    intro ts hif hdo
    refine (readsAt_action ts).map (f := Stmt.basic) (fun us hus => outcome_simple_action ?_ ?_) ?_
    · rw [hus]
      exact head?_ne_of_ne_cons hif
    · rw [hus]
      exact head?_ne_of_ne_cons hdo
    · rintro _ ⟨a, rfl⟩
      exact ⟨.basic a, rfl⟩
  case option =>
    intro ts ih ihoptions
    refine ((readsAt_expr ts).before (fun g mid hguard => ?_)
      ((canEnd_token .arrow trivial).before (canEnd_stmt.before canEnd_formedOptions))).cons
      (fun us _ => outcome_options_cons) ?_
    · obtain ⟨hlt, _⟩ := outcome_eq_ok_iff.mp hguard
      refine (readsAt_expect .arrow trivial mid).before (fun _ mid' hsign => ?_)
        (canEnd_stmt.before canEnd_formedOptions)
      obtain ⟨hlt', _⟩ := outcome_eq_ok_iff.mp hsign
      refine (ih ⟨g, mid, hlt⟩ ⟨(), mid', hlt'⟩).before (fun s mid'' hbody => ?_)
        canEnd_formedOptions
      obtain ⟨hlt'', _⟩ := outcome_eq_ok_iff.mp hbody
      exact (ihoptions ⟨g, mid, hlt⟩ ⟨(), mid', hlt'⟩ ⟨s, mid'', hlt''⟩).returning ((g, s) :: ·)
    · rintro _ ⟨_, _, ⟨g, rfl⟩, ⟨_, _, rfl, ⟨_, _, ⟨d, rfl⟩, hmore, rfl⟩, rfl⟩, rfl⟩
      rcases hmore with rfl | ⟨os, rfl⟩
      · exact .inr ⟨.last (.mk g d), by simp [Options.tokens, Branch.tokens]⟩
      · exact .inr ⟨.next (.mk g d) os, by simp [Options.tokens, Branch.tokens]⟩
  case last =>
    intro ts hcolons
    refine readsAt_nothing (v := []) (fun us hus => ?_) (.inl rfl)
    rw [options]
    · rfl
    · exact ne_cons_of_head?_eq hus hcolons

end Statements

end OmegaCheck.Parser
