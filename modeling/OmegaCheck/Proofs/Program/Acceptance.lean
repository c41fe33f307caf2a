import OmegaCheck.Proofs.Program.UniqueReading

/-!
# Programs that were read

Whatever text a statement is read from, its names are identifiers, and no choice, loop or atomic
block in it is empty. Conversely the text of such a statement can be read.
-/

namespace OmegaCheck

namespace Lexeme

theorem isIdentifier_of_ofWord {c : Char} {cs : List Char} {name : String}
    (hc : startsWord c = true) (hcs : cs.all continuesWord = true)
    (h : Token.ofWord (String.ofList (c :: cs)) = .ident name) : isIdentifier name = true := by
  rw [Token.ofWord] at h
  cases hlookup : Token.reserved.lookup (String.ofList (c :: cs)) with
  | some t =>
    rw [hlookup, Option.getD_some] at h
    subst h
    obtain ⟨word, hmem⟩ : ∃ word, (word, Token.ident name) ∈ Token.reserved := by
      obtain ⟨before, after, hsplit, _⟩ := List.lookup_eq_some_iff.mp hlookup
      exact ⟨String.ofList (c :: cs), by rw [hsplit]; simp⟩
    simp [Token.reserved] at hmem
  | none =>
    rw [hlookup, Option.getD_none] at h
    cases h
    rw [isIdentifier, String.toList_ofList]
    simp only [hc, hcs, hlookup, Option.isNone_none, Bool.and_true]

theorem isIdentifier_of_scan {c : Char} {cs : List Char} {name : String} {n : Nat}
    (h : scan c cs = .ok (.ident name, n)) : isIdentifier name = true := by
  unfold scan at h
  split at h
  · dsimp only at h
    split at h <;> cases h
  split at h
  · next hc =>
    simp only [Except.ok.injEq, Prod.mk.injEq] at h
    exact isIdentifier_of_ofWord hc (List.all_takeWhile) h.1
  split at h
  · next t ht =>
    cases h
    obtain ⟨d, _, hd⟩ := Option.bind_eq_some_iff.mp ht
    unfold Token.ofTwo? at hd
    split at hd <;> cases hd
  · split at h
    · next t ht =>
      cases h
      unfold Token.ofOne? at ht
      split at ht <;> cases ht
    · cases h

end Lexeme

/-- The names of an action are identifiers, and it is not an empty block. -/
def Action.accepted (a : Action) : Bool := a.wellNamed && a.filled

/-- The names of a statement are identifiers, and none of its choices, loops and blocks is empty. -/
def Stmt.accepted (s : Stmt) : Bool := s.all Action.accepted Expr.wellNamed

namespace Parser

/-- Every word among the tokens that names something may do so. -/
def Named (ts : List Token) : Prop := ∀ name, Token.ident name ∈ ts → isIdentifier name = true

theorem named_of_lexFrom {offset : Nat} {cs : List Char} {lexemes : List Lexeme}
    (h : Lexeme.lexFrom offset cs = .ok lexemes) : Named (lexemes.map Lexeme.token) := by
  fun_induction Lexeme.lexFrom offset cs generalizing lexemes with
  | case1 offset cs start hgap =>
    cases h
    intro name hname
    cases hname
  | case2 offset cs start c rest hgap fault hscan => cases h
  | case3 offset cs start c rest hgap token n hscan stop =>
    rename_i ih
    cases hrest : Lexeme.lexFrom (start + Lexeme.byteLength (c :: rest.take n)) (rest.drop n) with
    | error e =>
      rw [hrest] at h
      cases h
    | ok more =>
      rw [hrest] at h
      cases h
      intro name hname
      rw [List.map_cons, List.mem_cons] at hname
      obtain rfl | hname := hname
      · exact Lexeme.isIdentifier_of_scan hscan
      · exact ih hrest name hname

variable {α β : Type} {m n : Nat} {p : α → Bool} {q : β → Bool} {ts rest : List Token}

theorem Named.tail {t : Token} (h : Named (t :: ts)) : Named ts :=
  fun name hname => h name (List.mem_cons_of_mem t hname)

/-- Whatever is read passes the test, and so do the names that are left over. -/
def Gives (r : Reading α n) (p : α → Bool) : Prop :=
  ∀ v, r = .ok v → p v.value = true ∧ Named v.rest

theorem Gives.ok {v : Parsed α n} (hp : p v.value = true) (hrest : Named v.rest) :
    Gives (.ok v) p := by
  rintro _ ⟨⟩
  exact ⟨hp, hrest⟩

theorem Gives.error (e : Refusal) : Gives (.error e : Reading α n) p := by
  rintro _ ⟨⟩

theorem Gives.bind {r : Reading α m} {f : Parsed α m → Reading β n} (h : Gives r p)
    (hf : ∀ v, p v.value = true → Named v.rest → Gives (f v) q) : Gives (r >>= f) q := by
  intro w hw
  cases hr : r with
  | error e =>
    rw [hr] at hw
    cases hw
  | ok v =>
    rw [hr] at hw
    exact hf v (h v hr).1 (h v hr).2 w hw

theorem gives_expect (t : Token) (h : Named ts) : Gives (expect t ts) fun _ => true := by
  unfold expect
  split
  · split
    · exact .ok rfl h.tail
    · exact .error _
  · exact .error _

theorem gives_identifier (h : Named ts) : Gives (identifier ts) isIdentifier := by
  unfold identifier
  split
  · next name rest => exact .ok (h name List.mem_cons_self) h.tail
  · exact .error _

theorem gives_binary_climb_unary_primary :
    (∀ least ts, Named ts → Gives (binary least ts) Expr.wellNamed) ∧
    (∀ least lhs ts, lhs.wellNamed = true → Named ts →
      Gives (climb least lhs ts) Expr.wellNamed) ∧
    (∀ ts, Named ts → Gives (unary ts) Expr.wellNamed) ∧
    ∀ ts, Named ts → Gives (primary ts) Expr.wellNamed := by
  refine binary.mutual_induct (fun least ts => Named ts → Gives (binary least ts) Expr.wellNamed)
    (fun least lhs ts => lhs.wellNamed = true → Named ts →
      Gives (climb least lhs ts) Expr.wellNamed)
    (fun ts => Named ts → Gives (unary ts) Expr.wellNamed)
    (fun ts => Named ts → Gives (primary ts) Expr.wellNamed)
    ?binary ?looser ?step ?stop ?bang ?negative ?negativeRange ?minus ?primary ?number ?numberRange
    ?wordTrue ?wordFalse ?var ?paren ?refused
  case binary =>
    intro least ts ih ihclimb hts
    rw [binary]
    refine (ih hts).bind fun first hfirst hrest => ?_
    exact (ihclimb first hfirst hrest).bind fun whole hwhole hrest => .ok hwhole hrest
  case looser =>
    intro least lhs o rest ho hlhs hts
    rw [climb, if_pos ho]
    exact .ok hlhs hts
  case step =>
    intro least lhs o rest ho ih ihclimb hlhs hts
    rw [climb, if_neg ho]
    refine (ih hts.tail).bind fun rhs hrhs hrest => ?_
    have hboth : (Expr.binary o lhs rhs.value).wellNamed = true := by
      rw [Expr.wellNamed, hlhs, hrhs]
      rfl
    exact (ihclimb rhs hboth hrest).bind fun whole hwhole hrest => .ok hwhole hrest
  case stop =>
    intro least lhs ts hop hlhs hts
    rw [climb]
    · exact .ok hlhs hts
    · exact hop
  case bang =>
    intro rest ih hts
    rw [unary]
    exact (ih hts.tail).bind fun e he hrest => .ok he hrest
  case negative =>
    intro n rest hn hts
    rw [unary, if_pos hn]
    exact .ok rfl hts.tail.tail
  case negativeRange =>
    intro n rest hn hts
    rw [unary, if_neg hn]
    exact .error _
  case minus =>
    intro rest hint ih hts
    rw [unary]
    · exact (ih hts.tail).bind fun e he hrest => .ok he hrest
    · exact hint
  case primary =>
    intro ts hbang hliteral hminus ih hts
    rw [unary]
    · exact ih hts
    · exact hbang
    · exact hliteral
    · exact hminus
  case number =>
    intro n rest hn hts
    rw [primary, if_pos hn]
    exact .ok rfl hts.tail
  case numberRange =>
    intro n rest hn hts
    rw [primary, if_neg hn]
    exact .error _
  case wordTrue =>
    intro rest hts
    rw [primary]
    exact .ok rfl hts.tail
  case wordFalse =>
    intro rest hts
    rw [primary]
    exact .ok rfl hts.tail
  case var =>
    intro name rest hts
    rw [primary]
    exact .ok (hts name List.mem_cons_self) hts.tail
  case paren =>
    intro rest ih hts
    rw [primary]
    refine (ih hts.tail).bind fun e he hrest => ?_
    exact (gives_expect _ hrest).bind fun close _ hclose => .ok he hclose
  case refused =>
    intro ts hint htrue hfalse hident hparen hts
    rw [primary]
    · exact .error _
    all_goals assumption

theorem gives_expr (h : Named ts) : Gives (expr ts) Expr.wellNamed :=
  gives_binary_climb_unary_primary.1 1 ts h

theorem gives_assignment (h : Named ts) : Gives (assignment ts) Action.assignmentWellNamed := by
  rw [assignment]
  refine (gives_identifier h).bind fun name hname hrest => ?_
  refine (gives_expect _ hrest).bind fun sign _ hrest => ?_
  refine (gives_expr hrest).bind fun value hvalue hrest => .ok ?_ hrest
  exact Bool.and_eq_true_iff.mpr ⟨hname, hvalue⟩

theorem gives_assignments (h : Named ts) :
    Gives (assignments ts) (List.all · Action.assignmentWellNamed) := by
  induction ts using assignments.induct with
  | case1 rest hbrace =>
    rw [assignments, if_pos hbrace]
    exact .ok rfl h.tail
  | case2 rest hbrace ih =>
    rw [assignments, if_neg hbrace]
    refine (gives_assignment h.tail).bind fun first hfirst hrest => ?_
    refine (ih first hrest).bind fun more hmore hrest => .ok ?_ hrest
    exact Bool.and_eq_true_iff.mpr ⟨hfirst, hmore⟩
  | case3 ts hsemicolon =>
    rw [assignments]
    · exact .ok rfl h
    · exact hsemicolon

theorem gives_action (h : Named ts) : Gives (action ts) Action.accepted := by
  unfold action
  split
  · exact .ok rfl h.tail
  · refine (gives_expect _ h.tail).bind fun left _ hrest => ?_
    refine (gives_assignment hrest).bind fun first hfirst hrest => ?_
    refine (gives_assignments hrest).bind fun more hmore hrest => ?_
    refine (gives_expect _ hrest).bind fun right _ hrest => .ok ?_ hrest
    simp only [Action.accepted, Action.wellNamed, Action.filled, List.all_cons, hfirst, hmore,
      List.isEmpty_cons, Bool.not_false, Bool.and_self]
  · next name rest =>
    refine (gives_expr h.tail.tail).bind fun value hvalue hrest => .ok ?_ hrest
    simp only [Action.accepted, Parsed.widen, Parsed.map, Action.wellNamed,
      Action.assignmentWellNamed, Action.filled, h name List.mem_cons_self, hvalue, Bool.and_self]
  · next channel rest =>
    refine (gives_identifier h.tail.tail).bind fun target htarget hrest => .ok ?_ hrest
    simp only [Action.accepted, Parsed.widen, Parsed.map, Action.wellNamed, Action.filled,
      h channel List.mem_cons_self, htarget, Bool.and_self]
  · next channel rest =>
    refine (gives_expr h.tail.tail).bind fun value hvalue hrest => .ok ?_ hrest
    simp only [Action.accepted, Parsed.widen, Parsed.map, Action.wellNamed, Action.filled,
      h channel List.mem_cons_self, hvalue, Bool.and_self]
  · exact .error _
  · exact .error _

/-- The options of a choice or a loop are followed by the word that closes it. -/
theorem gives_block {opts : Parsed (List (Expr × Stmt)) m} {close : Token}
    {f : Parsed Unit opts.rest.length → Parsed Stmt n}
    (hopts : Stmt.allOptions Action.accepted Expr.wellNamed opts.value = true)
    (hrest : Named opts.rest)
    (hvalue : ∀ c, (f c).value = .choice opts.value ∨ (f c).value = .loop opts.value)
    (hf : ∀ c, (f c).rest = c.rest) :
    Gives (if opts.value.isEmpty then refuse (.token .doubleColon) opts.rest
      else do
        let c ← expect close opts.rest
        return f c) Stmt.accepted := by
  split
  · exact .error _
  · next hsome =>
    have hall : (!opts.value.isEmpty && Stmt.allOptions Action.accepted Expr.wellNamed opts.value) =
        true := by
      rw [Bool.not_eq_true] at hsome
      rw [hsome]
      exact hopts
    refine (gives_expect _ hrest).bind fun c _ hc => .ok ?_ (by rwa [hf c])
    obtain heq | heq := hvalue c
    · rw [heq]
      exact hall
    · rw [heq]
      exact hall

theorem gives_stmt_sequence_simple_options :
    (∀ ts, Named ts → Gives (stmt ts) Stmt.accepted) ∧
    (∀ first ts, first.accepted = true → Named ts → Gives (sequence first ts) Stmt.accepted) ∧
    (∀ ts, Named ts → Gives (simple ts) Stmt.accepted) ∧
    ∀ ts, Named ts → Gives (options ts) (Stmt.allOptions Action.accepted Expr.wellNamed) := by
  refine stmt.mutual_induct (fun ts => Named ts → Gives (stmt ts) Stmt.accepted)
    (fun first ts => first.accepted = true → Named ts →
      Gives (sequence first ts) Stmt.accepted)
    (fun ts => Named ts → Gives (simple ts) Stmt.accepted)
    (fun ts => Named ts → Gives (options ts) (Stmt.allOptions Action.accepted Expr.wellNamed))
    ?stmt ?separator ?next ?stop ?choice ?loop ?action ?option ?last
  case stmt =>
    intro ts ih ihsequence hts
    rw [stmt]
    refine (ih hts).bind fun first hfirst hrest => ?_
    exact (ihsequence first hfirst hrest).bind fun whole hwhole hrest => .ok hwhole hrest
  case separator =>
    intro first rest hends hfirst hts
    rw [sequence, if_pos hends]
    exact .ok hfirst hts.tail
  case next =>
    intro first rest hends ih ihsequence hfirst hts
    rw [sequence, if_neg hends]
    refine (ih hts.tail).bind fun second hsecond hrest => ?_
    have hboth : (Stmt.seq first second.value).accepted = true :=
      Stmt.all_seq.mpr ⟨hfirst, hsecond⟩
    exact (ihsequence second hboth hrest).bind fun whole hwhole hrest => .ok hwhole hrest
  case stop =>
    intro first ts hsemicolon hfirst hts
    rw [sequence]
    · exact .ok hfirst hts
    · exact hsemicolon
  case choice =>
    intro rest ih hts
    rw [simple]
    exact (ih hts.tail).bind fun opts hopts hrest =>
      gives_block hopts hrest (fun _ => .inl rfl) fun _ => rfl
  case loop =>
    intro rest ih hts
    rw [simple]
    exact (ih hts.tail).bind fun opts hopts hrest =>
      gives_block hopts hrest (fun _ => .inr rfl) fun _ => rfl
  case action =>
    intro ts hif hdo hts
    rw [simple]
    · exact (gives_action hts).bind fun a ha hrest => .ok ha hrest
    · exact hif
    · exact hdo
  case option =>
    intro rest ih ihoptions hts
    rw [options]
    refine (gives_expr hts.tail).bind fun guard hguard hrest => ?_
    refine (gives_expect _ hrest).bind fun sign _ hrest => ?_
    refine (ih guard sign hrest).bind fun body hbody hrest => ?_
    refine (ihoptions guard sign body hrest).bind fun more hmore hrest => .ok ?_ hrest
    exact Bool.and_eq_true_iff.mpr ⟨Bool.and_eq_true_iff.mpr ⟨hguard, hbody⟩, hmore⟩
  case last =>
    intro ts hcolons hts
    rw [options]
    · exact .ok rfl hts
    · exact hcolons

theorem accepted_of_whole {reader : (ts : List Token) → Reading α ts.length} {source : String}
    {a : α} (hreader : ∀ ts, Named ts → Gives (reader ts) p)
    (h : whole reader source = .ok a) : p a = true := by
  rw [whole] at h
  cases hlex : Lexeme.lex source with
  | error e =>
    rw [hlex] at h
    cases h
  | ok lexemes =>
    rw [hlex] at h
    have hgives := hreader _ (named_of_lexFrom hlex)
    cases hread : reader (lexemes.map Lexeme.token) with
    | error e =>
      simp only [bind, Except.bind, hread] at h
      cases h
    | ok v =>
      simp only [bind, Except.bind, hread] at h
      split at h
      · cases h
        exact (hgives v hread).1
      · cases h

end Parser

namespace Stmt

theorem all_mono {p p' : Action → Bool} {q q' : Expr → Bool}
    (hp : ∀ a, p a = true → p' a = true) (hq : ∀ e, q e = true → q' e = true) {s : Stmt}
    (hs : s.all p q = true) : s.all p' q' = true := by
  induction s with
  | basic a => exact hp a hs
  | seq s t ihs iht =>
    rw [all_seq] at hs ⊢
    exact ⟨ihs hs.1, iht hs.2⟩
  | choice os ih =>
    rw [all_choice] at hs ⊢
    exact ⟨hs.1, fun o ho => ⟨hq _ (hs.2 o ho).1, ih o ho (hs.2 o ho).2⟩⟩
  | loop os ih =>
    rw [all_loop] at hs ⊢
    exact ⟨hs.1, fun o ho => ⟨hq _ (hs.2 o ho).1, ih o ho (hs.2 o ho).2⟩⟩

theorem accepted_of_parse {source : String} {s : Stmt} (h : parse source = .ok s) :
    s.accepted = true :=
  Parser.accepted_of_whole Parser.gives_stmt_sequence_simple_options.1 h

theorem wellFormed_of_accepted {s : Stmt} (hs : s.accepted = true) : s.wellFormed = true :=
  all_mono (fun _ ha => (Bool.and_eq_true_iff.mp ha).1) (fun _ he => he) hs

theorem parse_text {s : Stmt} (hs : s.accepted = true) : parse s.text = .ok s.norm := by
  have hfilled : s.all Action.filled (fun _ => true) = true :=
    all_mono (fun a ha => (Bool.and_eq_true_iff.mp ha).2) (fun _ _ => rfl) hs
  have hread := (s.reads hfilled).yields (Parser.noOperator_nil Parser.levels) (by simp)
  rw [List.append_nil] at hread
  exact Parser.whole_eq_ok (s.prints_text (wellFormed_of_accepted hs)).lexes_all hread

end Stmt

end OmegaCheck
