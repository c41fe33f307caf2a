import OmegaCheck.Proofs.Program.Acceptance
import OmegaCheck.Proofs.Program.Derivation

/-!
# Reading a text again

The text of an expression, action or statement that was read can be read again. The result differs
only where a minus sign stands before a literal that is not negative: the source has them apart, by
parentheses or by a second sign, and the text does not, so that the sign is taken into the literal.
Hence the tree stays the same exactly if there is no such place, and the text stays the same exactly
if no sign stands before a zero.
-/

namespace OmegaCheck

open Lexeme OmegaCheck.Parser

namespace Expr

/-- No minus sign stands before a literal that `p` picks. -/
def unsigned (p : Int64 → Bool) : Expr → Bool
  | neg (int n) => !p n
  | neg e => e.unsigned p
  | not e => e.unsigned p
  | binary _ lhs rhs => lhs.unsigned p && rhs.unsigned p
  | _ => true

def isNatural (n : Int64) : Bool := decide (0 ≤ n)

def isZero (n : Int64) : Bool := decide (n = 0)

theorem unsigned_neg_of_ne {p : Int64 → Bool} (hp : ∀ n, p n = true → 0 ≤ n) {e : Expr}
    (h : ∀ n, 0 ≤ n → e ≠ int n) : (neg e).unsigned p = e.unsigned p := by
  cases e with
  | int n =>
    have hn : p n = false := Bool.eq_false_iff.mpr fun hn => h n (hp n hn) rfl
    simp [unsigned, hn]
  | _ => rfl

theorem norm_eq_self_iff {e : Expr} : e.norm = e ↔ e.unsigned isNatural = true := by
  induction e with
  | neg e ih =>
    by_cases hlit : ∃ n, 0 ≤ n ∧ e = int n
    · obtain ⟨n, hn, rfl⟩ := hlit
      simp [norm, unsigned, isNatural, hn]
    · have hlit' : ∀ n, 0 ≤ n → e ≠ int n := fun n hn he => hlit ⟨n, hn, he⟩
      rw [norm_neg_of_ne hlit', neg.injEq, ih, unsigned_neg_of_ne (by simp [isNatural]) hlit']
  | not e ih => rw [norm, not.injEq, ih, unsigned]
  | binary op lhs rhs ihl ihr => simp [norm, unsigned, ihl, ihr]
  | _ => simp [norm, unsigned]

theorem not_pos_neg {n : Int64} (hn : 0 ≤ n) : ¬ 0 < -n := by
  rw [Int64.lt_iff_toInt_lt, Int64.toInt_zero, toInt_neg hn]
  rw [Int64.le_iff_toInt_le, Int64.toInt_zero] at hn
  omega

/-- Taking signs into literals makes no literal positive. -/
theorem norm_ne_literal {e : Expr} (h : ∀ n, 0 ≤ n → e ≠ int n) : ∀ n, 0 < n → e.norm ≠ int n := by
  intro n hn
  cases e with
  | int m =>
    rintro ⟨⟩
    exact h n (Int64.le_of_lt hn) rfl
  | neg e =>
    by_cases hlit : ∃ m, 0 ≤ m ∧ e = int m
    · obtain ⟨m, hm, rfl⟩ := hlit
      rw [norm, if_pos hm]
      rintro ⟨⟩
      exact not_pos_neg hm hn
    · rw [norm_neg_of_ne fun m hm he => hlit ⟨m, hm, he⟩]
      simp
  | _ => simp [norm]

theorem canon_norm_eq_iff {e : Expr} : e.norm.canon = e.canon ↔ e.unsigned isZero = true := by
  induction e with
  | neg e ih =>
    by_cases hlit : ∃ n, 0 ≤ n ∧ e = int n
    · obtain ⟨n, hn, rfl⟩ := hlit
      by_cases hzero : n = 0
      · subst hzero
        decide
      · simp [norm, canon, unsigned, isZero, hn, hzero, pos_of_nonneg_of_ne_zero hn hzero]
    · have hlit' : ∀ n, 0 ≤ n → e ≠ int n := fun n hn he => hlit ⟨n, hn, he⟩
      have hzero : ∀ n, isZero n = true → 0 ≤ n := by
        intro n hn
        rw [of_decide_eq_true hn]
        decide
      rw [norm_neg_of_ne hlit', canon_neg_of_ne (norm_ne_literal hlit'),
        canon_neg_of_ne fun n hn => hlit' n (Int64.le_of_lt hn), neg.injEq, ih,
        unsigned_neg_of_ne hzero hlit']
  | not e ih => rw [norm, canon, canon, not.injEq, ih, unsigned]
  | binary op lhs rhs ihl ihr => simp [norm, canon, unsigned, ihl, ihr]
  | _ => simp [norm, unsigned]

theorem wellNamed_of_parse {source : String} {e : Expr} (h : Expr.parse source = .ok e) :
    e.wellNamed = true :=
  accepted_of_whole (fun _ => gives_expr) h

/-- Parentheses keep a minus sign and a literal apart. -/
theorem parse_minus_paren {e : Expr} (he : e.wellNamed = true) :
    Expr.parse ("-" ++ ("(" ++ e.text ++ ")")) = .ok (neg e.norm) := by
  have hread : ReadsAs 0 (.op .sub :: operandTokens true e.tokens) (neg e.norm) :=
    (e.reads.paren 0).minus rfl (by simp)
  have hexpr := (hread.mono (Nat.zero_le levels)).yields_expr (noOperator_nil levels)
  rw [List.append_nil] at hexpr
  exact whole_eq_ok (e.prints_text he).paren.minus.lexes_all hexpr

end Expr

namespace Action

/-- Every expression of the action passes `q`. -/
def allExprs (q : Expr → Bool) : Action → Bool
  | assign _ value | send _ value => q value
  | atomic assignments => assignments.all fun a => q a.2
  | _ => true

theorem mapExprs_eq_mapExprs_iff {f g : Expr → Expr} {q : Expr → Bool}
    (h : ∀ e, f e = g e ↔ q e = true) {a : Action} :
    a.mapExprs f = a.mapExprs g ↔ a.allExprs q = true := by
  cases a with
  | atomic as => simp [mapExprs, allExprs, List.map_inj_left, h]
  | _ => simp [mapExprs, allExprs, h]

theorem mapExprs_id (a : Action) : a.mapExprs id = a := by
  cases a <;> simp [mapExprs]

theorem mapExprs_mapExprs (f g : Expr → Expr) (a : Action) :
    (a.mapExprs f).mapExprs g = a.mapExprs (g ∘ f) := by
  cases a <;> simp [mapExprs, Function.comp_def]

theorem accepted_of_parse {source : String} {a : Action} (h : Action.parse source = .ok a) :
    a.accepted = true :=
  accepted_of_whole (fun _ => gives_action) h

theorem norm_eq_self_iff {a : Action} :
    a.norm = a ↔ a.allExprs (Expr.unsigned Expr.isNatural) = true := by
  have h : a.mapExprs Expr.norm = a.mapExprs id ↔ _ :=
    mapExprs_eq_mapExprs_iff fun e => Expr.norm_eq_self_iff
  rwa [mapExprs_id] at h

theorem canon_norm_eq_iff {a : Action} :
    a.norm.canon = a.canon ↔ a.allExprs (Expr.unsigned Expr.isZero) = true := by
  rw [norm, canon, mapExprs_mapExprs, canon]
  exact mapExprs_eq_mapExprs_iff fun e => Expr.canon_norm_eq_iff

end Action

namespace Stmt

theorem map_id (s : Stmt) : s.map id id = s := by
  induction s with
  | basic a => rfl
  | seq s t ihs iht => rw [map, ihs, iht]
  | choice os ih | loop os ih =>
    rw [map, mapOptions_eq_map, List.map_congr_left (g := id) fun o ho => by simp [ih o ho],
      List.map_id]

theorem map_eq_map_iff {f f' : Action → Action} {g g' : Expr → Expr} {p : Action → Bool}
    {q : Expr → Bool} (hf : ∀ a, f a = f' a ↔ p a = true) (hg : ∀ e, g e = g' e ↔ q e = true)
    {s : Stmt} (hs : s.accepted = true) : s.map f g = s.map f' g' ↔ s.all p q = true := by
  have hoptions : ∀ os : List (Expr × Stmt),
      (∀ o ∈ os, o.2.accepted = true → (o.2.map f g = o.2.map f' g' ↔ o.2.all p q = true)) →
      (os ≠ [] ∧ ∀ o ∈ os, o.1.wellNamed = true ∧ o.2.accepted = true) →
        (mapOptions f g os = mapOptions f' g' os ↔
          os ≠ [] ∧ ∀ o ∈ os, q o.1 = true ∧ o.2.all p q = true) := by
    intro os ih hos
    rw [mapOptions_eq_map, mapOptions_eq_map, List.map_inj_left, and_iff_right hos.1]
    refine forall₂_congr fun o ho => ?_
    rw [Prod.mk.injEq, hg, ih o ho (hos.2 o ho).2]
  induction s with
  | basic a => simp [map, all, hf]
  | seq s t ihs iht =>
    obtain ⟨hs, ht⟩ := all_seq.mp hs
    rw [map, map, seq.injEq, all_seq]
    exact and_congr (ihs hs) (iht ht)
  | choice os ih => rw [map, map, choice.injEq, hoptions os ih (all_choice.mp hs), all_choice]
  | loop os ih => rw [map, map, loop.injEq, hoptions os ih (all_loop.mp hs), all_loop]

end Stmt

namespace Grammar

variable (f : Action → Action) (g : Expr → Expr)

-- The sequences of a derivation are nested to the left, so that nesting them changes nothing.
mutual
theorem Program.nestWith_value (d : Program) : d.value.nestWith f g = d.value.map f g := by
  match d with
  | .mk first sequel => exact sequel.nestWith_value (first.nestWith_value).1
termination_by structural d

theorem Sequel.nestWith_value (d : Sequel) {first : Stmt}
    (h : first.nestWith f g = first.map f g) :
    (d.value first).nestWith f g = (d.value first).map f g := by
  match d with
  | .stop _ => exact h
  | .next s more =>
    refine more.nestWith_value ?_
    rw [Stmt.nestWith, h, s.nestWith_value.2, Stmt.map]
termination_by structural d

theorem Simple.nestWith_value (d : Simple) : d.value.nestWith f g = d.value.map f g ∧
    ∀ first, Stmt.attachWith f g first d.value = .seq first (d.value.map f g) := by
  match d with
  | .basic a => exact ⟨rfl, fun _ => rfl⟩
  | .choice os | .loop os =>
    have hos := os.nestWith_value
    simp [Simple.value, Stmt.nestWith, Stmt.attachWith, Stmt.map, hos]
termination_by structural d

theorem Options.nestWith_value (d : Options) :
    Stmt.nestOptionsWith f g d.value = Stmt.mapOptions f g d.value := by
  match d with
  | .last o => simp [Options.value, Stmt.nestOptionsWith, Stmt.mapOptions, o.nestWith_value]
  | .next o more =>
    simp [Options.value, Stmt.nestOptionsWith, Stmt.mapOptions, o.nestWith_value,
      more.nestWith_value]
termination_by structural d

theorem Branch.nestWith_value (d : Branch) : d.value.2.nestWith f g = d.value.2.map f g := by
  match d with
  | .mk _ body => exact body.nestWith_value
termination_by structural d
end

end Grammar

theorem Action.canon_eq_of_text_eq {a b : Action} (ha : a.wellNamed = true) (hb : b.wellNamed = true)
    (h : a.text = b.text) : a.canon = b.canon :=
  Stmt.basic.inj (Stmt.canon_eq_of_text_eq (s := .basic a) (t := .basic b) ha hb h)

theorem Expr.canon_eq_of_text_eq {d e : Expr} (hd : d.wellNamed = true) (he : e.wellNamed = true)
    (h : d.text = e.text) : d.canon = e.canon := by
  have hnamed : ∀ e : Expr, e.wellNamed = true → (Action.send "c" e).wellNamed = true := by
    intro e he
    rw [Action.wellNamed, he]
    decide
  have hsend : (Action.send "c" d).canon = (Action.send "c" e).canon :=
    Action.canon_eq_of_text_eq (hnamed d hd) (hnamed e he) (by rw [Action.text, h, Action.text])
  exact (Action.send.inj hsend).2

namespace Stmt

theorem nestWith_of_parse {source : String} {s : Stmt} (h : Stmt.parse source = .ok s)
    (f : Action → Action) (g : Expr → Expr) : s.nestWith f g = s.map f g := by
  obtain ⟨lexemes, _, hread⟩ := whole_eq_ok_iff.mp h
  obtain ⟨d, _, rfl⟩ := ensures_stmt_sequence_simple_options.1 _ s [] hread
  exact d.nestWith_value f g

theorem canon_norm_of_parse {source : String} {s : Stmt} (h : Stmt.parse source = .ok s) :
    (s.map Action.norm Expr.norm).canon =
      s.map (Action.canon ∘ Action.norm) (Expr.canon ∘ Expr.norm) := by
  have hnest : map id id (s.map Action.norm Expr.norm).canon =
      s.nestWith (Action.canon ∘ Action.norm) (Expr.canon ∘ Expr.norm) :=
    (map_nestWith_map (fun _ _ => rfl) (fun _ _ => rfl) (accepted_of_parse h)).1
  rw [map_id] at hnest
  exact hnest.trans (nestWith_of_parse h _ _)

end Stmt

/-- The text of `t` is read as the normal form of `t`. This is the same tree if no natural number in
`t` is signed, and has the same text if no zero is. -/
structure Rereads {α : Type} (parse : String → Except ParseError α) (text : α → String)
    (norm : α → α) (unsigned : (Int64 → Bool) → α → Bool) (t : α) : Prop where
  again : parse (text t) = .ok (norm t)
  sameTree : parse (text t) = .ok t ↔ unsigned Expr.isNatural t = true
  sameText : text (norm t) = text t ↔ unsigned Expr.isZero t = true

theorem Rereads.of_norm {α : Type} {parse : String → Except ParseError α} {text : α → String}
    {norm canon : α → α} {unsigned : (Int64 → Bool) → α → Bool} {t : α}
    (hparse : parse (text t) = .ok (norm t)) (hnorm : norm t = t ↔ unsigned Expr.isNatural t = true)
    (hcanon : canon (norm t) = canon t ↔ unsigned Expr.isZero t = true)
    (htext : ∀ u, text (canon u) = text u)
    (hunique : text (norm t) = text t → canon (norm t) = canon t) :
    Rereads parse text norm unsigned t where
  again := hparse
  sameTree := by rw [hparse, Except.ok.injEq, hnorm]
  sameText := by
    rw [← hcanon]
    refine ⟨hunique, fun heq => ?_⟩
    rw [← htext, heq, htext]

theorem Expr.rereads {source : String} {e : Expr} (h : Expr.parse source = .ok e) :
    Rereads Expr.parse Expr.text Expr.norm Expr.unsigned e := by
  have hnamed := wellNamed_of_parse h
  have hparse := parse_text hnamed
  exact .of_norm hparse norm_eq_self_iff canon_norm_eq_iff text_canon
    (canon_eq_of_text_eq (wellNamed_of_parse hparse) hnamed)

theorem Action.rereads {source : String} {a : Action} (h : Action.parse source = .ok a) :
    Rereads Action.parse Action.text Action.norm (fun p => allExprs (Expr.unsigned p)) a := by
  have hnamed : ∀ {source a}, Action.parse source = .ok a → a.wellNamed = true ∧ a.filled = true :=
    fun h => Bool.and_eq_true_iff.mp (accepted_of_parse h)
  have hparse := parse_text (hnamed h).1 (hnamed h).2
  exact .of_norm hparse norm_eq_self_iff canon_norm_eq_iff text_canon
    (canon_eq_of_text_eq (hnamed hparse).1 (hnamed h).1)

theorem Stmt.rereads {source : String} {s : Stmt} (h : Stmt.parse source = .ok s) :
    Rereads Stmt.parse Stmt.text (Stmt.map Action.norm Expr.norm)
      (fun p => all (Action.allExprs (Expr.unsigned p)) (Expr.unsigned p)) s := by
  have hnamed : ∀ {source s}, Stmt.parse source = .ok s → s.wellFormed = true := fun h =>
    wellFormed_of_accepted (accepted_of_parse h)
  have hparse : Stmt.parse s.text = .ok (s.map Action.norm Expr.norm) := by
    rw [parse_text (accepted_of_parse h), norm, nestWith_of_parse h]
  refine .of_norm hparse ?_ ?_ text_canon (canon_eq_of_text_eq (hnamed hparse) (hnamed h))
  · have hiff : s.map Action.norm Expr.norm = s.map id id ↔ _ :=
      map_eq_map_iff (fun a => Action.norm_eq_self_iff) (fun e => Expr.norm_eq_self_iff)
        (accepted_of_parse h)
    rwa [map_id] at hiff
  · rw [canon_norm_of_parse h, canon, nestWith_of_parse h]
    exact map_eq_map_iff (fun a => Action.canon_norm_eq_iff) (fun e => Expr.canon_norm_eq_iff)
      (accepted_of_parse h)

theorem rereads_of_parse (source : String) :
    (∀ e, Expr.parse source = .ok e →
      Rereads Expr.parse Expr.text Expr.norm Expr.unsigned e) ∧
    (∀ a, Action.parse source = .ok a →
      Rereads Action.parse Action.text Action.norm
        (fun p => Action.allExprs (Expr.unsigned p)) a) ∧
    ∀ s, Stmt.parse source = .ok s →
      Rereads Stmt.parse Stmt.text (Stmt.map Action.norm Expr.norm)
        (fun p => Stmt.all (Action.allExprs (Expr.unsigned p)) (Expr.unsigned p)) s :=
  ⟨fun _ => Expr.rereads, fun _ => Action.rereads, fun _ => Stmt.rereads⟩

/-- The parentheses are lost, and with them the sign: `-(1)` comes back as a literal, with the same
text, and `-(0)` as `0`. -/
theorem parse_text_signed_literal :
    Expr.parse "-(1)" = .ok (.neg (.int 1)) ∧ (Expr.neg (.int 1)).text = "-1" ∧
      Expr.parse "-1" = .ok (.int (-1)) ∧
    Expr.parse "-(0)" = .ok (.neg (.int 0)) ∧ (Expr.neg (.int 0)).text = "-0" ∧
      Expr.parse "-0" = .ok (.int 0) ∧ (Expr.int 0).text = "0" :=
  ⟨Expr.parse_minus_paren (e := .int 1) rfl, rfl, Expr.parse_text (e := .neg (.int 1)) rfl,
    Expr.parse_minus_paren (e := .int 0) rfl, rfl, Expr.parse_text (e := .neg (.int 0)) rfl, rfl⟩

/-- A signed literal becomes another tree with the same text; signs before anything else stay. -/
theorem rereads_signs :
    (Expr.parse "-(1)" = .ok (.neg (.int 1)) ∧
      Expr.parse (Expr.neg (.int 1)).text ≠ .ok (.neg (.int 1)) ∧
      (Expr.neg (.int 1)).norm.text = (Expr.neg (.int 1)).text) ∧
    Action.parse "c!--2" = .ok (.send "c" (.neg (.int (-2)))) ∧
      Action.parse (Action.send "c" (.neg (.int (-2)))).text = .ok (.send "c" (.neg (.int (-2)))) := by
  have hone : Expr.parse "-(1)" = .ok (.neg (.int 1)) := Expr.parse_minus_paren (e := .int 1) rfl
  have htwo : Action.parse "c!--2" = .ok (.send "c" (.neg (.int (-2)))) :=
    Action.parse_text (a := .send "c" (.neg (.int (-2)))) (by decide) rfl
  obtain ⟨_, htree, htext⟩ := (rereads_of_parse _).1 _ hone
  obtain ⟨_, htree', _⟩ := (rereads_of_parse _).2.1 _ htwo
  exact ⟨⟨hone, fun h => absurd (htree.mp h) (by decide), htext.mpr (by decide)⟩, htwo,
    htree'.mpr (by decide)⟩

end OmegaCheck
