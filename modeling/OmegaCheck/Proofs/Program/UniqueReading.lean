import OmegaCheck.Proofs.Program.Reading

/-!
# Unique reading

Programs with the same text are the same up to a form that keeps the text: a minus sign before a
positive literal belongs to the literal, and sequences are nested to the left. The reader alone does
not show this, since it forgets the sign of `-0` and refuses empty atomic blocks. So both are marked
first, with a variable and an assignment that no program contains, in the program and in its tokens
alike.
-/

namespace OmegaCheck

open Lexeme OmegaCheck.Parser

theorem Parser.whole_eq_ok {α : Type} {reader : (ts : List Token) → Reading α ts.length}
    {source : String} {ts : List Token} {v : α} (hlex : Lexes source.toList ts)
    (h : Yields (reader ts) v []) : whole reader source = .ok v := by
  obtain ⟨lexemes, hlexemes, rfl⟩ := hlex.lex
  obtain ⟨_, h⟩ := h
  rw [whole, bind_of_eq_ok hlexemes, bind_of_eq_ok h]
  rfl

theorem Parser.Yields.functional {α : Type} {n : Nat} {r : Reading α n} {u v : α}
    {rest rest' : List Token} (hu : Yields r u rest) (hv : Yields r v rest') : u = v := by
  obtain ⟨_, hu⟩ := hu
  obtain ⟨_, hv⟩ := hv
  cases hu.symm.trans hv
  rfl

theorem Parser.noOperator_nil (k : Nat) : NoOperator k [] := by
  intro o ho
  cases ho

/-- The mark of a zero literal among the tokens. -/
def Token.mark : Token → Token
  | int 0 => ident ""
  | t => t

namespace Expr

theorem parse_text {e : Expr} (he : e.wellNamed = true) : Expr.parse e.text = .ok e.norm := by
  have hread := e.yields_expr (noOperator_nil levels)
  rw [List.append_nil] at hread
  exact whole_eq_ok (e.prints_text he).lexes_all hread

/-- A variable that no program contains in place of each zero. -/
def mark : Expr → Expr
  | int n => if n = 0 then var "" else int n
  | neg e => neg e.mark
  | not e => not e.mark
  | binary op lhs rhs => binary op lhs.mark rhs.mark
  | e => e

def unmark : Expr → Expr
  | var name => if name = "" then int 0 else var name
  | neg e => neg e.unmark
  | not e => not e.unmark
  | binary op lhs rhs => binary op lhs.unmark rhs.unmark
  | e => e

/-- A minus sign before a positive literal belongs to it. The text stays the same. -/
def canon : Expr → Expr
  | neg (int n) => if 0 < n then int (-n) else neg (int n)
  | neg e => neg e.canon
  | not e => not e.canon
  | binary op lhs rhs => binary op lhs.canon rhs.canon
  | e => e

theorem level_mark (e : Expr) : e.mark.level = e.level := by
  cases e with
  | int n =>
    rw [mark]
    split <;> rfl
  | _ => rfl

theorem literalTokens_map_mark {n : Int} (hn : n ≠ 0) :
    (literalTokens n).map Token.mark = literalTokens n := by
  cases n with
  | ofNat m =>
    cases m with
    | zero => exact absurd rfl hn
    | succ m => rfl
  | negSucc m => rfl

theorem operandTokens_map_mark (parenthesized : Bool) (ts : List Token) :
    (operandTokens parenthesized ts).map Token.mark =
      operandTokens parenthesized (ts.map Token.mark) := by
  cases parenthesized <;> simp [operandTokens, Token.mark]

theorem tokens_mark (e : Expr) : e.mark.tokens = e.tokens.map Token.mark := by
  induction e with
  | int n =>
    rw [mark]
    split
    · next h => rw [h]; rfl
    · next h =>
      have hn : n.toInt ≠ 0 := by
        rwa [ne_eq, ← Int64.toInt_zero, Int64.toInt_inj]
      rw [tokens, literalTokens_map_mark hn]
  | bool b => cases b <;> rfl
  | var name => rfl
  | neg e ih => simp [mark, tokens, level_mark, ih, operandTokens_map_mark, Token.mark]
  | not e ih => simp [mark, tokens, level_mark, ih, operandTokens_map_mark, Token.mark]
  | binary op lhs rhs ihl ihr =>
    simp [mark, tokens, level_mark, ihl, ihr, operandTokens_map_mark, Token.mark]

theorem canon_neg_of_ne {e : Expr} (h : ∀ n, 0 < n → e ≠ int n) :
    (neg e).canon = neg e.canon := by
  cases e with
  | int n =>
    have hn : ¬ 0 < n := fun hn => h n hn rfl
    simp [canon, hn]
  | _ => rfl

theorem pos_of_nonneg_of_ne_zero {n : Int64} (hn : 0 ≤ n) (hne : n ≠ 0) : 0 < n := by
  rw [Int64.le_iff_toInt_le, Int64.toInt_zero] at hn
  rw [ne_eq, ← Int64.toInt_inj, Int64.toInt_zero] at hne
  rw [Int64.lt_iff_toInt_lt, Int64.toInt_zero]
  omega

theorem mark_ne_literal {e : Expr} (h : ∀ n, 0 < n → e ≠ int n) :
    ∀ n, 0 ≤ n → e.mark ≠ int n := by
  intro n hn
  cases e with
  | int m =>
    rw [mark]
    split
    · simp
    · next hm =>
      rintro ⟨⟩
      exact h n (pos_of_nonneg_of_ne_zero hn hm) rfl
  | _ => simp [mark]

theorem unmark_norm_mark {e : Expr} (he : e.wellNamed = true) : e.mark.norm.unmark = e.canon := by
  induction e with
  | int n =>
    rw [mark]
    split
    · next h => rw [h]; rfl
    · rfl
  | bool b => rfl
  | var name =>
    have hname : name ≠ "" := by
      rintro rfl
      cases he
    simp [mark, norm, unmark, canon, hname]
  | neg e ih =>
    by_cases hlit : ∃ n, 0 < n ∧ e = int n
    · obtain ⟨n, hn, rfl⟩ := hlit
      have hne : n ≠ 0 := by
        rintro rfl
        exact absurd hn (by decide)
      have hnonneg : 0 ≤ n := Int64.le_of_lt hn
      simp [mark, norm, canon, hne, hn, hnonneg, unmark]
    · have hlit' : ∀ n, 0 < n → e ≠ int n := fun n hn he => hlit ⟨n, hn, he⟩
      rw [canon_neg_of_ne hlit', ← ih he, mark, norm_neg_of_ne (mark_ne_literal hlit'), unmark]
  | not e ih => simp [mark, norm, unmark, canon, ih he]
  | binary op lhs rhs ihl ihr =>
    rw [wellNamed, Bool.and_eq_true] at he
    simp [mark, norm, unmark, canon, ihl he.1, ihr he.2]

theorem toInt_neg {n : Int64} (hn : 0 ≤ n) : (-n).toInt = -n.toInt := by
  have hhigh := n.toInt_lt
  rw [Int64.le_iff_toInt_le, Int64.toInt_zero] at hn
  rw [← Int64.ofInt_toInt n, Int64.neg_ofInt, Int64.toInt_ofInt_of_le (by omega) (by omega),
    Int64.ofInt_toInt]

theorem decimal_neg {n : Int64} (hn : 0 < n) :
    Text.decimal (-n).toInt = "-" ++ Text.decimal n.toInt := by
  rw [toInt_neg (Int64.le_of_lt hn)]
  rw [Int64.lt_iff_toInt_lt, Int64.toInt_zero] at hn
  obtain ⟨m, hm⟩ := Int.eq_succ_of_zero_lt hn
  rw [hm]
  rfl

/-- The forms differ in level only where both bind tighter than every binary operator. -/
theorem min_level_canon (e : Expr) : min e.canon.level 6 = min e.level 6 := by
  cases e with
  | neg e =>
    cases e with
    | int n =>
      rw [canon]
      split <;> rfl
    | _ => rfl
  | _ => rfl

theorem text_canon (e : Expr) : e.canon.text = e.text := by
  induction e with
  | neg e ih =>
    by_cases hlit : ∃ n, 0 < n ∧ e = int n
    · obtain ⟨n, hn, rfl⟩ := hlit
      rw [canon, if_pos hn]
      exact decimal_neg hn
    · have hlevel : e.canon.level < 6 ↔ e.level < 6 := by
        have := e.min_level_canon
        omega
      rw [canon_neg_of_ne fun n hn he => hlit ⟨n, hn, he⟩]
      simp only [text, ih, hlevel]
  | not e ih =>
    have hlevel : e.canon.level < 6 ↔ e.level < 6 := by
      have := e.min_level_canon
      omega
    simp only [canon, text, ih, hlevel]
  | binary op lhs rhs ihl ihr =>
    have hop : op.level ≤ 5 := op.level_le
    have hl := lhs.min_level_canon
    have hr := rhs.min_level_canon
    have hleft : lhs.canon.level < op.level ↔ lhs.level < op.level := by omega
    have hequal : (lhs.canon.level == op.level) = (lhs.level == op.level) := by
      rw [Bool.eq_iff_iff, beq_iff_eq, beq_iff_eq]
      omega
    have hright : rhs.canon.level ≤ op.level ↔ rhs.level ≤ op.level := by omega
    simp only [canon, text, ihl, ihr, hleft, hequal, hright]
  | _ => rfl

theorem leftBrace_not_mem_tokens (e : Expr) : Token.leftBrace ∉ e.tokens := by
  have hoperand : ∀ p ts, Token.leftBrace ∉ ts → Token.leftBrace ∉ operandTokens p ts := by
    intro p ts hts
    cases p <;> simp [operandTokens, hts]
  induction e with
  | int n => cases h : n.toInt <;> simp [tokens, literalTokens, h]
  | bool b => cases b <;> simp [tokens]
  | var name => simp [tokens]
  | neg e ih => simp [tokens, hoperand _ _ ih]
  | not e ih => simp [tokens, hoperand _ _ ih]
  | binary op lhs rhs ihl ihr => simp [tokens, hoperand _ _ ihl, hoperand _ _ ihr]

end Expr

/-- The tokens of a program after its zeros and empty blocks are marked. -/
def markTokens : List Token → List Token
  | .leftBrace :: .rightBrace :: rest =>
    .leftBrace :: .ident "" :: .assign :: .ident "" :: .rightBrace :: markTokens rest
  | t :: rest => t.mark :: markTokens rest
  | [] => []

theorem markTokens_cons {t : Token} (ht : t ≠ .leftBrace) (rest : List Token) :
    markTokens (t :: rest) = t.mark :: markTokens rest := by
  rw [markTokens]
  rintro _ rfl
  exact absurd rfl ht

theorem markTokens_append {ts : List Token} (hts : Token.leftBrace ∉ ts) (rest : List Token) :
    markTokens (ts ++ rest) = ts.map Token.mark ++ markTokens rest := by
  induction ts with
  | nil => rfl
  | cons t ts ih =>
    rw [List.mem_cons, not_or] at hts
    rw [List.cons_append, markTokens_cons (Ne.symm hts.1), ih hts.2]
    rfl

namespace Action

theorem parse_text {a : Action} (ha : a.wellNamed = true) (hfilled : a.filled = true) :
    Action.parse a.text = .ok a.norm := by
  have hread := a.yields_action hfilled (noOperator_nil levels)
  rw [List.append_nil] at hread
  exact whole_eq_ok (a.prints_text ha).lexes_all hread

/-- An assignment that no program contains in place of none, and zeros marked. -/
def mark : Action → Action
  | atomic [] => atomic [("", .var "")]
  | a => a.mapExprs Expr.mark

def unmark (a : Action) : Action :=
  if a = atomic [("", .var "")] then atomic [] else a.mapExprs Expr.unmark

def canon (a : Action) : Action := a.mapExprs Expr.canon

theorem filled_mark (a : Action) : a.mark.filled = true := by
  cases a with
  | atomic as => cases as <;> rfl
  | _ => rfl

theorem unmark_norm_mark {a : Action} (ha : a.wellNamed = true) : a.mark.norm.unmark = a.canon := by
  cases a with
  | skip => rfl
  | assign name value =>
    rw [wellNamed, assignmentWellNamed, Bool.and_eq_true] at ha
    simp [mark, norm, unmark, canon, mapExprs, Expr.unmark_norm_mark ha.2]
  | atomic as =>
    cases as with
    | nil => rfl
    | cons b bs =>
      have hvalues : ∀ c ∈ b :: bs, c.2.mark.norm.unmark = c.2.canon := by
        intro c hc
        have := List.all_eq_true.1 ha c hc
        rw [assignmentWellNamed, Bool.and_eq_true] at this
        exact Expr.unmark_norm_mark this.2
      have hname : b.1 ≠ "" := by
        intro hb
        rw [wellNamed, List.all_cons, assignmentWellNamed, hb] at ha
        cases ha
      have hother : (atomic (b :: bs)).mark.norm ≠ atomic [("", .var "")] := by
        simp [mark, norm, mapExprs, hname]
      rw [unmark, if_neg hother]
      simp only [mark, norm, canon, mapExprs, List.map_map]
      congr 1
      apply List.map_congr_left
      intro c hc
      simp [hvalues c hc]
  | receive channel target => rfl
  | send channel value =>
    rw [wellNamed, Bool.and_eq_true] at ha
    simp [mark, norm, unmark, canon, mapExprs, Expr.unmark_norm_mark ha.2]

theorem text_canon (a : Action) : a.canon.text = a.text := by
  cases a with
  | atomic as =>
    have htexts : (as.map fun a => (a.1, a.2.canon)).map assignmentText = as.map assignmentText := by
      simp [assignmentText, Expr.text_canon, Function.comp_def]
    rw [canon, mapExprs, text, htexts, text]
  | _ => simp [canon, mapExprs, text, assignmentText, Expr.text_canon]

theorem leftBrace_not_mem_block (as : List (String × Expr)) : Token.leftBrace ∉ blockTokens as := by
  have hfurther : ∀ as, Token.leftBrace ∉ furtherTokens as := by
    intro as
    induction as with
    | nil => simp [furtherTokens]
    | cons a as ih => simp [furtherTokens, assignmentTokens, a.2.leftBrace_not_mem_tokens, ih]
  cases as with
  | nil => simp [blockTokens]
  | cons a as =>
    simp [blockTokens, assignmentTokens, a.2.leftBrace_not_mem_tokens, hfurther as]

theorem blockTokens_mark (as : List (String × Expr)) :
    blockTokens (as.map fun a => (a.1, a.2.mark)) = (blockTokens as).map Token.mark := by
  have hfurther : ∀ as, furtherTokens (as.map fun a => (a.1, a.2.mark)) =
      (furtherTokens as).map Token.mark := by
    intro as
    induction as with
    | nil => rfl
    | cons a as ih =>
      simp [furtherTokens, assignmentTokens, a.2.tokens_mark, ih, Token.mark]
  cases as with
  | nil => rfl
  | cons a as => simp [blockTokens, assignmentTokens, a.2.tokens_mark, hfurther as, Token.mark]

theorem markTokens_tokens (a : Action) (rest : List Token) :
    markTokens (a.tokens ++ rest) = a.mark.tokens ++ markTokens rest := by
  cases a with
  | atomic as =>
    cases as with
    | nil => rfl
    | cons b bs =>
      have hnone : Token.leftBrace ∉ blockTokens (b :: bs) ++ [.rightBrace] := by
        simp [leftBrace_not_mem_block]
      have hmark : (atomic (b :: bs)).mark.tokens =
          .wordAtomic :: .leftBrace ::
            (blockTokens (b :: bs) ++ [Token.rightBrace]).map Token.mark := by
        simp [mark, mapExprs, tokens, ← blockTokens_mark, Token.mark]
      rw [hmark]
      change markTokens (.wordAtomic :: .leftBrace :: (_ ++ rest)) = _
      rw [markTokens_cons (by simp), markTokens, markTokens_append hnone]
      · rfl
      · intro _ _ h
        simp [blockTokens, assignmentTokens] at h
  | skip => exact markTokens_append (by simp [tokens]) rest
  | assign name value =>
    rw [markTokens_append (by simp [tokens, assignmentTokens, value.leftBrace_not_mem_tokens])]
    simp [mark, mapExprs, tokens, assignmentTokens, value.tokens_mark, Token.mark]
  | receive channel target => exact markTokens_append (by simp [tokens]) rest
  | send channel value =>
    rw [markTokens_append (by simp [tokens, value.leftBrace_not_mem_tokens])]
    simp [mark, mapExprs, tokens, value.tokens_mark, Token.mark]

end Action

namespace Stmt

mutual
/-- The statement with `f` applied to its actions and `g` to its guards. -/
def map (f : Action → Action) (g : Expr → Expr) : Stmt → Stmt
  | basic action => basic (f action)
  | seq first second => seq (map f g first) (map f g second)
  | choice options => choice (mapOptions f g options)
  | loop options => loop (mapOptions f g options)

def mapOptions (f : Action → Action) (g : Expr → Expr) : List (Expr × Stmt) → List (Expr × Stmt)
  | [] => []
  | (guard, body) :: rest => (g guard, map f g body) :: mapOptions f g rest
end

theorem mapOptions_eq_map {f : Action → Action} {g : Expr → Expr} (os : List (Expr × Stmt)) :
    mapOptions f g os = os.map fun o => (g o.1, map f g o.2) := by
  induction os with
  | nil => rfl
  | cons o os ih => rw [mapOptions, ih, List.map_cons]

theorem all_map {p p' : Action → Bool} {q q' : Expr → Bool} {f : Action → Action}
    {g : Expr → Expr} (hp : ∀ a, p a = true → p' (f a) = true)
    (hq : ∀ e, q e = true → q' (g e) = true) {s : Stmt} (hs : s.all p q = true) :
    (map f g s).all p' q' = true := by
  have hoptions : ∀ os : List (Expr × Stmt),
      (∀ o ∈ os, o.2.all p q = true → (map f g o.2).all p' q' = true) →
      (os ≠ [] ∧ ∀ o ∈ os, q o.1 = true ∧ o.2.all p q = true) →
        mapOptions f g os ≠ [] ∧ ∀ o ∈ mapOptions f g os, q' o.1 = true ∧ o.2.all p' q' = true := by
    intro os ih hos
    rw [mapOptions_eq_map]
    refine ⟨by simpa using hos.1, ?_⟩
    intro o' ho'
    obtain ⟨o, ho, rfl⟩ := List.mem_map.1 ho'
    exact ⟨hq o.1 (hos.2 o ho).1, ih o ho (hos.2 o ho).2⟩
  induction s with
  | basic a => exact hp a hs
  | seq s t ihs iht =>
    rw [all_seq] at hs
    exact all_seq.2 ⟨ihs hs.1, iht hs.2⟩
  | choice os ih => exact all_choice.2 (hoptions os ih (all_choice.1 hs))
  | loop os ih => exact all_loop.2 (hoptions os ih (all_loop.1 hs))

/-- What is done to actions and guards before, during and after the nesting can be done at once. -/
theorem map_nestWith_map {p : Action → Bool} {q : Expr → Bool} {f f' f'' k : Action → Action}
    {g g' g'' l : Expr → Expr} (hf : ∀ a, p a = true → f'' (f' (f a)) = k a)
    (hg : ∀ e, q e = true → g'' (g' (g e)) = l e) {s : Stmt} (hs : s.all p q = true) :
    map f'' g'' (nestWith f' g' (map f g s)) = nestWith k l s ∧ ∀ first,
      map f'' g'' (attachWith f' g' first (map f g s)) = attachWith k l (map f'' g'' first) s := by
  have hoptions : ∀ os : List (Expr × Stmt),
      (∀ o ∈ os, map f'' g'' (nestWith f' g' (map f g o.2)) = nestWith k l o.2) →
      (∀ o ∈ os, q o.1 = true ∧ o.2.all p q = true) →
        mapOptions f'' g'' (nestOptionsWith f' g' (mapOptions f g os)) = nestOptionsWith k l os := by
    intro os ih hos
    simp only [mapOptions_eq_map, nestOptionsWith_eq_map, List.map_map]
    apply List.map_congr_left
    intro o ho
    simp [ih o ho, hg o.1 (hos o ho).1]
  induction s with
  | basic a => simp [map, nestWith, attachWith, hf a hs]
  | seq s t ihs iht =>
    rw [all_seq] at hs
    constructor
    · rw [map, nestWith, (iht hs.2).2, (ihs hs.1).1, nestWith]
    · intro first
      rw [map, attachWith, (iht hs.2).2, (ihs hs.1).2, attachWith]
  | choice os ih =>
    rw [all_choice] at hs
    have := hoptions os (fun o ho => (ih o ho (hs.2 o ho).2).1) hs.2
    simp [map, nestWith, attachWith, this]
  | loop os ih =>
    rw [all_loop] at hs
    have := hoptions os (fun o ho => (ih o ho (hs.2 o ho).2).1) hs.2
    simp [map, nestWith, attachWith, this]

theorem optionsText_map {k : Expr × Stmt → Expr × Stmt} {os : List (Expr × Stmt)}
    (h : ∀ o ∈ os, (k o).1.text = o.1.text ∧ (k o).2.text = o.2.text) :
    optionsText (os.map k) = optionsText os := by
  induction os with
  | nil => rfl
  | cons o os ih =>
    rw [List.forall_mem_cons] at h
    rw [List.map_cons, optionsText, h.1.1, h.1.2, ih h.2, optionsText]

theorem text_nestWith {f : Action → Action} {g : Expr → Expr}
    (hf : ∀ a, (f a).text = a.text) (hg : ∀ e, (g e).text = e.text) (s : Stmt) :
    (nestWith f g s).text = s.text ∧
      ∀ first, (attachWith f g first s).text = seqText first.text s.text := by
  have hoptions : ∀ os : List (Expr × Stmt), (∀ o ∈ os, (nestWith f g o.2).text = o.2.text) →
      optionsText (nestOptionsWith f g os) = optionsText os := by
    intro os ih
    rw [nestOptionsWith_eq_map]
    exact optionsText_map fun o ho => ⟨hg o.1, ih o ho⟩
  induction s with
  | basic a => simp [nestWith, attachWith, text, hf]
  | seq s t ihs iht =>
    constructor
    · rw [nestWith, iht.2, ihs.1, text]
    · intro first
      rw [attachWith, iht.2, ihs.2, text]
      simp [seqText, String.append_assoc]
  | choice os ih => simp [nestWith, attachWith, text, hoptions os fun o ho => (ih o ho).1]
  | loop os ih => simp [nestWith, attachWith, text, hoptions os fun o ho => (ih o ho).1]

/-- The form that a text determines. -/
def canon (s : Stmt) : Stmt := nestWith Action.canon Expr.canon s

theorem text_canon (s : Stmt) : s.canon.text = s.text :=
  (text_nestWith Action.text_canon Expr.text_canon s).1

def mark (s : Stmt) : Stmt := map Action.mark Expr.mark s

theorem markTokens_branches {t u : Token} {ts us : List Token} (ht : t ≠ .leftBrace)
    (ht' : t.mark = t) (hu : u ≠ .leftBrace) (hu' : u.mark = u)
    (h : ∀ rest, markTokens (ts ++ rest) = us ++ markTokens rest) (rest : List Token) :
    markTokens (t :: (ts ++ [u]) ++ rest) = t :: (us ++ [u]) ++ markTokens rest := by
  simp [markTokens_cons ht, markTokens_cons hu, ht', hu', h]

theorem markTokens_optionTokens {os : List (Expr × Stmt)}
    (h : ∀ o ∈ os, ∀ rest, markTokens (o.2.tokens ++ rest) = o.2.mark.tokens ++ markTokens rest)
    (rest : List Token) : markTokens (optionTokens os ++ rest) =
      optionTokens (mapOptions Action.mark Expr.mark os) ++ markTokens rest := by
  induction os with
  | nil => rfl
  | cons o os ih =>
    rw [List.forall_mem_cons] at h
    simp only [optionTokens, mapOptions, List.cons_append, List.append_assoc]
    rw [markTokens_cons (by simp), markTokens_append o.1.leftBrace_not_mem_tokens,
      markTokens_cons (by simp), h.1, ih h.2, o.1.tokens_mark]
    rfl

theorem markTokens_tokens (s : Stmt) (rest : List Token) :
    markTokens (s.tokens ++ rest) = s.mark.tokens ++ markTokens rest := by
  induction s generalizing rest with
  | basic a => exact a.markTokens_tokens rest
  | seq s t ihs iht =>
    change _ = (seq s.mark t.mark).tokens ++ markTokens rest
    rw [tokens, tokens, List.append_assoc, List.append_assoc, ihs, List.cons_append,
      markTokens_cons (by simp), iht]
    rfl
  | choice os ih =>
    exact markTokens_branches (by simp) rfl (by simp) rfl (markTokens_optionTokens ih) rest
  | loop os ih =>
    exact markTokens_branches (by simp) rfl (by simp) rfl (markTokens_optionTokens ih) rest

theorem norm_eq_of_tokens_eq {s t : Stmt} (hs : s.all Action.filled (fun _ => true) = true)
    (ht : t.all Action.filled (fun _ => true) = true) (h : s.tokens = t.tokens) :
    s.norm = t.norm := by
  have hread := (reads s hs).yields (noOperator_nil levels) (by simp)
  rw [h] at hread
  exact hread.functional ((reads t ht).yields (noOperator_nil levels) (by simp))

/-- Programs with the same text differ at most in the nesting of sequences and in the minus signs
that belong to literals. -/
theorem canon_eq_of_text_eq {s t : Stmt} (hs : s.wellFormed = true) (ht : t.wellFormed = true)
    (h : s.text = t.text) : s.canon = t.canon := by
  have htokens : s.tokens = t.tokens := by
    have hlex := (prints_text s hs).lexes_all
    rw [h] at hlex
    exact hlex.functional (prints_text t ht).lexes_all
  have hmark : ∀ r : Stmt, r.mark.tokens = markTokens r.tokens := by
    intro r
    simpa [markTokens] using (markTokens_tokens r []).symm
  have hfilled : ∀ r : Stmt, r.wellFormed = true →
      r.mark.all Action.filled (fun _ => true) = true := fun r hr =>
    all_map (fun a _ => a.filled_mark) (fun _ _ => rfl) hr
  -- Reading forgets the sign of `-0` and refuses an empty block, so the marked programs are read.
  have hnorm : s.mark.norm = t.mark.norm := by
    apply norm_eq_of_tokens_eq (hfilled s hs) (hfilled t ht)
    rw [hmark, hmark, htokens]
  have hcanon : ∀ r : Stmt, r.wellFormed = true →
      map Action.unmark Expr.unmark r.mark.norm = r.canon := fun r hr =>
    (map_nestWith_map (fun a ha => Action.unmark_norm_mark ha)
      (fun e he => Expr.unmark_norm_mark he) hr).1
  rw [← hcanon s hs, hnorm, hcanon t ht]

end Stmt

end OmegaCheck
