import OmegaCheck.Proofs.Program.Lookahead

/-!
# Where texts are refused

A text is refused at the first token that no accepted text has behind the tokens before it, the end
of the text counting as a token. A text that has no tokens is refused at the first place where none
can be found.
-/

namespace OmegaCheck.Parser

open Grammar

/-- The tokens of a text with a mark for its end. -/
def marked (ts : List Token) : List (Option Token) := ts.map some ++ [none]

theorem prefix_marked_iff {front ts : List Token} {o : Option Token} :
    front.map some ++ [o] <+: marked ts ↔ ∃ rest, ts = front ++ rest ∧ rest.head? = o := by
  induction front generalizing ts with
  | nil =>
    cases ts with
    | nil => simp [marked, eq_comm]
    | cons t ts => simp [marked, eq_comm]
  | cons t front ih =>
    cases ts with
    | nil => simp [marked]
    | cons u ts =>
      have hstep : marked (u :: ts) = some u :: marked ts := rfl
      rw [hstep, List.map_cons, List.cons_append, List.cons_prefix_cons, ih, Option.some.injEq]
      constructor
      · rintro ⟨rfl, rest, rfl, hrest⟩
        exact ⟨rest, rfl, hrest⟩
      · rintro ⟨rest, hts, hrest⟩
        obtain ⟨rfl, rfl⟩ := List.cons.inj hts
        exact ⟨rfl, rest, rfl, hrest⟩

theorem take_marked (front rest : List Token) :
    (marked (front ++ rest)).take front.length = front.map some ∧
      (marked (front ++ rest)).take (front.length + 1) = front.map some ++ [rest.head?] := by
  have hsplit : marked (front ++ rest) = front.map some ++ marked rest := by simp [marked]
  have hhead : (marked rest).take 1 = [rest.head?] := by cases rest <;> rfl
  rw [hsplit]
  constructor
  · rw [← List.length_map (f := some), List.take_left]
  · rw [← List.length_map (f := some), List.take_length_add_append, hhead]

theorem Refusal.offset_locate {lexemes : List Lexeme} {front rest : List Token} (reason : Reason)
    (length : Nat) (h : lexemes.map Lexeme.token = front ++ rest) :
    (Refusal.locate ⟨reason, rest⟩ lexemes length).offset =
      Lexeme.startOf lexemes length front.length := by
  have hlength : lexemes.length - rest.length = front.length := by
    have := congrArg List.length h
    rw [List.length_map, List.length_append] at this
    omega
  rw [Refusal.locate, hlength, List.head?_drop, Lexeme.startOf]

section Whole

variable {α : Type} {reader : (ts : List Token) → Reading α ts.length} {source : String}
  {lexemes : List Lexeme}

theorem whole_eq_error_of_error {r : Refusal} (hlex : Lexeme.lex source = .ok lexemes)
    (h : outcome (reader (lexemes.map Lexeme.token)) = .error r) :
    whole reader source = .error (r.locate lexemes source.utf8ByteSize) := by
  rw [outcome_eq_error_iff] at h
  rw [whole, bind_of_eq_ok hlex, h]
  rfl

theorem whole_eq_error_of_ok {v : α} {t : Token} {rest : List Token}
    (hlex : Lexeme.lex source = .ok lexemes)
    (h : outcome (reader (lexemes.map Lexeme.token)) = .ok (v, t :: rest)) :
    whole reader source =
      .error (Refusal.locate ⟨.expected .endOfInput, t :: rest⟩ lexemes source.utf8ByteSize) := by
  obtain ⟨_, h⟩ := outcome_eq_ok_iff.mp h
  rw [whole, bind_of_eq_ok hlex, bind_of_eq_ok h]
  rfl

end Whole

/-- Some accepted text has tokens that begin with these. -/
def Viable {α : Type} (parse : String → Except ParseError α) (front : List (Option Token)) : Prop :=
  ∃ source v lexemes, parse source = .ok v ∧ Lexeme.lex source = .ok lexemes ∧
    front <+: marked (lexemes.map Lexeme.token)

theorem Viable.mono {α : Type} {parse : String → Except ParseError α}
    {front front' : List (Option Token)} (h : Viable parse front) (hle : front' <+: front) :
    Viable parse front' := by
  obtain ⟨source, v, lexemes, hparse, hlex, hfront⟩ := h
  exact ⟨source, v, lexemes, hparse, hlex, hle.trans hfront⟩

/-- The text has these tokens in front of the byte `offset`, from where on it reads `rest`. -/
def CutAt (source : String) (ts : List Token) (offset : Nat) (rest : List Char) : Prop :=
  Lexeme.Cut source.toList ts rest ∧
    ∃ front, source.toList = front ++ rest ∧ Lexeme.byteLength front = offset

/-- The parser refuses a text at the first place where it cannot go on. If the text has tokens, that
is the first token, or the end, that no accepted text has behind the tokens before. Otherwise it is
the first place where there is no token. -/
structure Pinpoints {α : Type} (parse : String → Except ParseError α) : Prop where
  atToken : ∀ source lexemes e, Lexeme.lex source = .ok lexemes → parse source = .error e →
    ∃ k ≤ lexemes.length, ∃ rest, CutAt source ((lexemes.map Lexeme.token).take k) e.offset rest ∧
      Lexeme.Front (lexemes.map Lexeme.token)[k]? rest ∧
      Viable parse ((marked (lexemes.map Lexeme.token)).take k) ∧
      ¬ Viable parse ((marked (lexemes.map Lexeme.token)).take (k + 1))
  atCharacter : ∀ source e, Lexeme.lex source = .error e → parse source = .error e ∧
    ∃ ts rest, CutAt source ts e.offset rest ∧ Lexeme.Unreadable rest

section Pinpointing

variable {α : Type} {p : Phrase α} {reader : (ts : List Token) → Reading α ts.length}
  {source : String} {lexemes : List Lexeme}

theorem cutAt_of_cut {ts : List Token} {offset : Nat} {rest : List Char}
    (hcut : Lexeme.Cut source.toList ts rest)
    (h : offset + Lexeme.byteLength rest = source.utf8ByteSize) : CutAt source ts offset rest := by
  obtain ⟨front, hfront⟩ := hcut.exists_append
  refine ⟨hcut, front, hfront, ?_⟩
  rw [← Lexeme.byteLength_toList, hfront, Lexeme.byteLength_append] at h
  omega

/-- Tokens of a text that can be completed to a phrase begin the tokens of an accepted text. -/
theorem viable_of_canEnd {front rest : List Token}
    (hyields : ∀ d, Yields (reader (p.tokens d ++ [])) (p.value d) [])
    (hlex : Lexeme.lex source = .ok lexemes) (htokens : lexemes.map Lexeme.token = front ++ rest)
    (h : CanEnd (Formed p.tokens) front) : Viable (whole reader) (front.map some) := by
  obtain ⟨more, hmore, d, hd⟩ := h
  have hspelled : ∀ t ∈ p.tokens d, t.Spellable := by
    intro t ht
    rw [hd, List.mem_append] at ht
    have hfront := Lexeme.spellable_of_lex hlex t
    rw [htokens] at hfront
    exact ht.elim (fun ht => hfront (List.mem_append_left rest ht)) (hmore t)
  obtain ⟨text, lexemes', hlex', htokens'⟩ := Lexeme.exists_lex hspelled
  refine ⟨text, p.value d, lexemes', ?_, hlex', ?_⟩
  · have hread := hyields d
    rw [List.append_nil, ← htokens'] at hread
    exact whole_eq_ok_iff.mpr ⟨lexemes', hlex', hread⟩
  · rw [htokens', hd, marked, List.map_append, List.append_assoc]
    exact List.prefix_append _ _

theorem not_viable_of_outcome {front : List Token} {o : Option Token}
    (h : ∀ v rest, rest.head? = o → outcome (reader (front ++ rest)) ≠ .ok (v, [])) :
    ¬ Viable (whole reader) (front.map some ++ [o]) := by
  rintro ⟨text, v, lexemes, haccepted, hlex, hprefix⟩
  obtain ⟨rest, htokens, hhead⟩ := prefix_marked_iff.mp hprefix
  obtain ⟨lexemes', hlex', hyields⟩ := whole_eq_ok_iff.mp haccepted
  cases hlex.symm.trans hlex'
  rw [htokens] at hyields
  exact h v rest hhead (outcome_eq_ok_iff.mpr hyields)

theorem exists_cutAt {front rest : List Token} {offset : Nat}
    (hlex : Lexeme.lex source = .ok lexemes) (htokens : lexemes.map Lexeme.token = front ++ rest)
    (hoffset : offset = Lexeme.startOf lexemes source.utf8ByteSize front.length) :
    front.length ≤ lexemes.length ∧
      ∃ cs, CutAt source ((lexemes.map Lexeme.token).take front.length) offset cs ∧
        Lexeme.Front (lexemes.map Lexeme.token)[front.length]? cs := by
  have hle : front.length ≤ lexemes.length := by
    rw [← List.length_map (f := Lexeme.token), htokens, List.length_append]
    exact Nat.le_add_right _ _
  obtain ⟨cs, hcut, hfront, hstart⟩ := Lexeme.cut_of_lexFrom hlex hle
  rw [Nat.zero_add, Lexeme.byteLength_toList, ← hoffset] at hstart
  exact ⟨hle, cs, cutAt_of_cut hcut hstart, hfront⟩

theorem pinpoints_whole (hyields : ∀ d, Yields (reader (p.tokens d ++ [])) (p.value d) [])
    (hreads : ∀ ts, ReadsAt (fun ts => outcome (reader ts)) (Formed p.tokens) ts) :
    Pinpoints (whole reader) where
  atToken source lexemes e hlex herror := by
    cases hreads (lexemes.map Lexeme.token) with
    | error front rest reason htokens hread hfront =>
      have hstop := hread rest rfl
      rw [← htokens] at hstop
      cases herror.symm.trans (whole_eq_error_of_error hlex hstop)
      obtain ⟨hle, cs, hcut, hnext⟩ := exists_cutAt hlex htokens
        (Refusal.offset_locate reason _ htokens)
      refine ⟨front.length, hle, cs, hcut, hnext, ?_, ?_⟩
      · rw [htokens, (take_marked front rest).1]
        exact viable_of_canEnd hyields hlex htokens hfront
      · rw [htokens, (take_marked front rest).2]
        apply not_viable_of_outcome
        intro v rest' hrest' hok
        cases (hread rest' hrest').symm.trans hok
    | ok front rest v htokens hread hfront =>
      have hstop := hread rest rfl
      rw [← htokens] at hstop
      cases rest with
      | nil =>
        have haccepted := whole_eq_ok_iff.mpr ⟨lexemes, hlex, outcome_eq_ok_iff.mp hstop⟩
        cases herror.symm.trans haccepted
      | cons t rest =>
        cases herror.symm.trans (whole_eq_error_of_ok hlex hstop)
        obtain ⟨hle, cs, hcut, hnext⟩ := exists_cutAt hlex htokens
          (Refusal.offset_locate _ _ htokens)
        refine ⟨front.length, hle, cs, hcut, hnext, ?_, ?_⟩
        · rw [htokens, (take_marked front (t :: rest)).1]
          exact viable_of_canEnd hyields hlex htokens ⟨[], by simp, by simpa using hfront⟩
        · rw [htokens, (take_marked front (t :: rest)).2]
          apply not_viable_of_outcome
          intro w rest' hrest' hok
          -- The reader leaves the token that it stopped at, whatever follows.
          cases (hread rest' hrest').symm.trans hok
          cases hrest'
  atCharacter source e hlex := by
    refine ⟨by rw [whole, hlex]; rfl, ?_⟩
    obtain ⟨ts, rest, hcut, hrest, hoffset⟩ := Lexeme.cut_of_lexFrom_error hlex
    rw [Nat.zero_add, Lexeme.byteLength_toList] at hoffset
    exact ⟨ts, rest, cutAt_of_cut hcut hoffset, hrest⟩

end Pinpointing

theorem pinpoints_parse :
    Pinpoints Stmt.parse ∧ Pinpoints Expr.parse ∧ Pinpoints Action.parse ∧
      Pinpoints Action.parsePair := by
  have hend : NoOperator levels [] := noOperator_nil levels
  refine ⟨?_, ?_, ?_, ?_⟩
  · exact pinpoints_whole (p := Phrase.statements) (fun d => Program.yields d rfl)
      readsAt_stmt_sequence_simple_options.1
  · exact pinpoints_whole (p := Phrase.expressions) (fun d => Operand.yields_expr d hend)
      readsAt_expr
  · exact pinpoints_whole (p := Phrase.actions) (fun d => Basic.yields d hend) readsAt_action
  · exact pinpoints_whole (p := Phrase.handshakes) (fun d => Pair.yields d hend) readsAt_handshake

theorem viable_sum : Viable Expr.parse [some (.ident "x"), some (.op .add)] := by
  have hlex : Lexeme.lex "x+y" =
      .ok [⟨.ident "x", 0, 1⟩, ⟨.op .add, 1, 2⟩, ⟨.ident "y", 2, 3⟩] := by
    have htext : "x+y".toList = ['x', '+', 'y'] := by decide
    rw [Lexeme.lex, htext, Lexeme.lexFrom_of_scan (n := 0) rfl rfl,
      Lexeme.lexFrom_of_scan (n := 0) rfl rfl, Lexeme.lexFrom_of_scan (n := 0) rfl rfl,
      Lexeme.lexFrom_of_end rfl]
    rfl
  have hread : outcome (expr [.ident "x", .op .add, .ident "y"]) =
      .ok (.binary .add (.var "x") (.var "y"), []) := by
    simp [expr, binary, unary, primary, climb, outcome, bind, Except.bind, Except.map, pure,
      Except.pure, BinOp.level, Parsed.widen]
  exact ⟨_, _, _, whole_eq_ok_iff.mpr ⟨_, hlex, outcome_eq_ok_iff.mp hread⟩, hlex, _, rfl⟩

/-- An operand is missing behind the sign, which shows at the parenthesis. -/
theorem parse_sum_pinpoints : ∃ e, Expr.parse "x+)" = .error e ∧ e.offset = 2 ∧
    Viable Expr.parse [some (.ident "x"), some (.op .add)] ∧
    ¬ Viable Expr.parse [some (.ident "x"), some (.op .add), some .rightParen] := by
  have hlex : Lexeme.lex "x+)" =
      .ok [⟨.ident "x", 0, 1⟩, ⟨.op .add, 1, 2⟩, ⟨.rightParen, 2, 3⟩] := by
    have htext : "x+)".toList = ['x', '+', ')'] := by decide
    rw [Lexeme.lex, htext, Lexeme.lexFrom_of_scan (n := 0) rfl rfl,
      Lexeme.lexFrom_of_scan (n := 0) rfl rfl, Lexeme.lexFrom_of_scan (n := 0) rfl rfl,
      Lexeme.lexFrom_of_end rfl]
    rfl
  have hread : outcome (expr [.ident "x", .op .add, .rightParen]) =
      .error ⟨.expected .expression, [.rightParen]⟩ := by
    simp [expr, binary, unary, primary, climb, outcome, bind, Except.bind, Except.map, refuse,
      BinOp.level]
  have herror := whole_eq_error_of_error hlex hread
  obtain ⟨_, hexpr, _, _⟩ := pinpoints_parse
  obtain ⟨k, hk, rest, ⟨_, front, hsplit, hfront⟩, hnext, _, hnone⟩ :=
    hexpr.atToken _ _ _ hlex herror
  refine ⟨_, herror, rfl, viable_sum, ?_⟩
  have hk : k ≤ 3 := hk
  obtain rfl | rfl | rfl | rfl : k = 0 ∨ k = 1 ∨ k = 2 ∨ k = 3 := by omega
  · exact absurd (viable_sum.mono (by decide)) hnone
  · exact absurd viable_sum hnone
  · exact hnone
  · -- The end of the text is not where the parser stopped.
    cases (hnext : rest = [])
    rw [List.append_nil] at hsplit
    rw [← hsplit] at hfront
    exact absurd hfront (by decide)

end OmegaCheck.Parser
