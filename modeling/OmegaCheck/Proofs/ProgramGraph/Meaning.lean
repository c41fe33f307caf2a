import OmegaCheck.Proofs.Program.Meaning
import OmegaCheck.Proofs.ProgramGraph.Compilation

/-!
# The meaning of the texts in a program graph

Conditions are put together as text and read again when the graph is run. What is read is the
conjunction of the guards that the condition was put together from, so it holds when they hold, asked
from the outermost guard inwards and no further than needed.
-/

namespace OmegaCheck

open OmegaCheck.Parser

/-- The text of a phrase that reads as `e`, as an operand of the tightest `k` levels. -/
def Denotes (k : Nat) (text : String) (e : Expr) : Prop := ∃ ts, Prints text ts ∧ ReadsAs k ts e

/-- The same, and more operators of the level next to the tightest `k` may follow. -/
def DenotesChain (k : Nat) (text : String) (e : Expr) : Prop :=
  ∃ ts, Prints text ts ∧ BeginsChain k ts e

namespace Denotes

variable {k : Nat} {s t : String} {u v : Expr}

theorem of_text {e : Expr} (he : e.wellNamed = true) : Denotes levels e.text e.norm :=
  ⟨e.tokens, e.prints_text he, e.reads.whole⟩

theorem mono {m : Nat} (h : Denotes k s u) (hkm : k ≤ m) : Denotes m s u := by
  obtain ⟨ts, hprints, hreads⟩ := h
  exact ⟨ts, hprints, hreads.mono hkm⟩

theorem chain (h : Denotes k s u) : DenotesChain k s u := by
  obtain ⟨ts, hprints, hreads⟩ := h
  exact ⟨ts, hprints, hreads.beginsChain⟩

theorem paren (h : Denotes levels s u) : Denotes 0 ("(" ++ s ++ ")") u := by
  obtain ⟨ts, hprints, hreads⟩ := h
  exact ⟨_, hprints.paren, hreads.paren⟩

theorem bang (h : Denotes 0 s u) : Denotes 0 ("!" ++ s) (.not u) := by
  obtain ⟨ts, hprints, hreads⟩ := h
  exact ⟨_, hprints.bang, hreads.bang⟩

theorem parse (h : Denotes levels s u) : Expr.parse s = .ok u := by
  obtain ⟨ts, hprints, hreads⟩ := h
  have hread := hreads.yields_expr (noOperator_nil levels)
  rw [List.append_nil] at hread
  exact whole_eq_ok hprints.lexes_all hread

theorem standard_guard (h : Denotes levels s u) (m : Memory) :
    Evaluators.standard.guard m s = u.holds m := by
  apply Evaluators.standard_guard_eq m _ h.parse
  obtain ⟨ts, hprints, _⟩ := h
  exact hprints.opens.not_isBlank

end Denotes

theorem DenotesChain.denotes {k : Nat} {s : String} {u : Expr} (h : DenotesChain k s u) :
    Denotes (k + 1) s u := by
  obtain ⟨ts, hprints, hreads⟩ := h
  exact ⟨ts, hprints, hreads.readsAs⟩

theorem DenotesChain.binary {k : Nat} {s t : String} {u v : Expr} {o : BinOp}
    (h : DenotesChain k s u) (ht : Denotes k t v) (ho : o.level + k = levels) :
    DenotesChain k (s ++ " " ++ o.symbol ++ " " ++ t) (.binary o u v) := by
  obtain ⟨ts, hprints, hreads⟩ := h
  obtain ⟨us, hprints', hreads'⟩ := ht
  exact ⟨_, hprints.binary o hprints', hreads.binary hreads' ho⟩

namespace Expr

variable (m : Memory) (u v : Expr)

theorem holds_not : (not u).holds m = (u.holds m).map (!·) := by
  unfold holds
  rw [eval]
  cases u.eval m with
  | error e => rfl
  | ok a => by_cases ha : a = 0 <;> simp [ha, truth, bind, Except.bind, Except.map, pure, Except.pure]

theorem holds_and : (binary .and u v).holds m =
    (do if ← u.holds m then v.holds m else return false) := by
  unfold holds
  rw [eval]
  cases u.eval m with
  | error e => rfl
  | ok a =>
    by_cases ha : a = 0
    · simp [ha, shortcut?, bind, Except.bind, Except.map, pure, Except.pure]
    · cases v.eval m with
      | error e => simp [ha, shortcut?, bind, Except.bind, Except.map]
      | ok b => by_cases hb : b = 0 <;>
          simp [ha, hb, shortcut?, combine, truth, bind, Except.bind, Except.map]

theorem holds_or : (binary .or u v).holds m =
    (do if ← u.holds m then return true else v.holds m) := by
  unfold holds
  rw [eval]
  cases u.eval m with
  | error e => rfl
  | ok a =>
    by_cases ha : a = 0
    · cases v.eval m with
      | error e => simp [ha, shortcut?, bind, Except.bind, Except.map]
      | ok b => by_cases hb : b = 0 <;>
          simp [ha, hb, shortcut?, combine, truth, bind, Except.bind, Except.map]
    · simp [ha, shortcut?, bind, Except.bind, Except.map, pure, Except.pure]

end Expr

namespace Condition

/-- The disjunction of the guards. -/
def anyTree : List Expr → Expr
  | [] => .bool false
  | g :: gs => gs.foldl (.binary .or) g

/-- The expression whose text is that of a condition. -/
def tree? : Condition → Option Expr
  | always => none
  | under guard inner =>
    match inner.tree? with
    | none => some guard
    | some tree => some (.binary .and guard tree)
  | noneOf guards => some (.not (anyTree guards))

def tree (c : Condition) : Expr := c.tree?.getD (.bool true)

def norm : Condition → Condition
  | always => always
  | under guard inner => under guard.norm inner.norm
  | noneOf guards => noneOf (guards.map Expr.norm)

def all (q : Expr → Bool) : Condition → Bool
  | always => true
  | under guard inner => q guard && inner.all q
  | noneOf guards => guards.all q

/-- Whether no guard holds; the guards are asked in order until one holds. -/
def noneHolds (m : Memory) : List Expr → Except EvalError Bool
  | [] => .ok true
  | g :: gs => do if ← g.holds m then return false else noneHolds m gs

/-- Whether a condition holds; the guards are asked from the outermost inwards until one fails. -/
def holds (m : Memory) : Condition → Except EvalError Bool
  | always => .ok true
  | under guard inner => do if ← guard.holds m then inner.holds m else return false
  | noneOf guards => noneHolds m guards

theorem holds_foldl_or (m : Memory) (gs : List Expr) (acc : Expr) :
    ((gs.foldl (.binary .or) acc).holds m).map (!·) =
      (do if ← acc.holds m then return false else noneHolds m gs) := by
  induction gs generalizing acc with
  | nil =>
    change (acc.holds m).map (!·) = _
    cases acc.holds m with
    | error e => rfl
    | ok b => cases b <;> rfl
  | cons g gs ih =>
    rw [List.foldl_cons, ih, Expr.holds_or]
    cases acc.holds m with
    | error e => rfl
    | ok b => cases b <;> rfl

theorem holds_anyTree (m : Memory) (gs : List Expr) :
    ((anyTree gs).holds m).map (!·) = noneHolds m gs := by
  cases gs with
  | nil => rfl
  | cons g gs => exact holds_foldl_or m gs g

theorem holds_tree (m : Memory) (c : Condition) : c.tree.holds m = c.holds m := by
  induction c with
  | always => rfl
  | under guard inner ih =>
    rw [holds, ← ih]
    unfold tree
    rw [tree?]
    cases inner.tree? with
    | none =>
      change guard.holds m = (do if ← guard.holds m then .ok true else return false)
      cases guard.holds m with
      | error e => rfl
      | ok b => cases b <;> rfl
    | some t => exact Expr.holds_and m guard t
  | noneOf guards =>
    rw [holds, ← holds_anyTree]
    exact Expr.holds_not m (anyTree guards)

theorem agree_noneHolds_norm (m : Memory) (gs : List Expr) :
    Agree (noneHolds m (gs.map Expr.norm)) (noneHolds m gs) := by
  induction gs with
  | nil => exact .ok true
  | cons g gs ih =>
    apply (g.agree_holds_norm m).bind
    intro b
    cases b with
    | true => exact .ok false
    | false => exact ih

theorem agree_holds_norm (m : Memory) (c : Condition) : Agree (c.norm.holds m) (c.holds m) := by
  induction c with
  | always => exact .ok true
  | under guard inner ih =>
    apply (guard.agree_holds_norm m).bind
    intro b
    cases b with
    | true => exact ih
    | false => exact .ok false
  | noneOf guards => exact agree_noneHolds_norm m guards

theorem text_under (guard : Expr) {inner : Condition} (h : inner ≠ always) :
    (under guard inner).text = "(" ++ guard.text ++ ") && (" ++ inner.text ++ ")" := by
  have hsome : ∃ t, inner.text? = some t := by
    cases inner with
    | always => exact absurd rfl h
    | under guard inner => exact ⟨_, rfl⟩
    | noneOf guards => exact ⟨_, rfl⟩
  obtain ⟨t, ht⟩ := hsome
  simp [text, text?, ht, Draft.conjunction]

theorem tree_under (guard : Expr) {inner : Condition} (h : inner ≠ always) :
    (under guard inner).tree = .binary .and guard inner.tree := by
  have hsome : ∃ t, inner.tree? = some t := by
    cases inner with
    | always => exact absurd rfl h
    | under guard inner => cases ht : inner.tree? <;> exact ⟨_, by simp only [tree?, ht]; rfl⟩
    | noneOf guards => exact ⟨_, rfl⟩
  obtain ⟨t, ht⟩ := hsome
  simp [tree, tree?, ht]

theorem norm_ne_always {c : Condition} (h : c ≠ always) : c.norm ≠ always := by
  cases c <;> simp_all [norm]

theorem denotesChain_foldl_or {gs : List Expr} (hgs : ∀ g ∈ gs, g.wellNamed = true) {s : String}
    {acc : Expr} (h : DenotesChain 4 s acc) :
    DenotesChain 4 (gs.foldl (fun acc h => acc ++ " || (" ++ h.text ++ ")") s)
      ((gs.map Expr.norm).foldl (.binary .or) acc) := by
  induction gs generalizing s acc with
  | nil => exact h
  | cons g gs ih =>
    rw [List.forall_mem_cons] at hgs
    have hguard : Denotes 4 ("(" ++ g.text ++ ")") g.norm :=
      (Denotes.of_text hgs.1).paren.mono (Nat.zero_le 4)
    have hstep := h.binary (o := .or) hguard rfl
    have htext : s ++ " " ++ BinOp.or.symbol ++ " " ++ ("(" ++ g.text ++ ")") =
        s ++ " || (" ++ g.text ++ ")" := by
      apply String.toList_injective
      simp [BinOp.symbol]
    rw [htext] at hstep
    exact ih hgs.2 hstep

theorem denotes_guardsText {gs : List Expr} (hgs : ∀ g ∈ gs, g.wellNamed = true) :
    Denotes levels (Stmt.guardsText gs) (anyTree (gs.map Expr.norm)) := by
  cases gs with
  | nil => exact Denotes.of_text (e := .bool false) rfl
  | cons g gs =>
    rw [List.forall_mem_cons] at hgs
    have hguard : Denotes 4 ("(" ++ g.text ++ ")") g.norm :=
      (Denotes.of_text hgs.1).paren.mono (Nat.zero_le 4)
    exact (denotesChain_foldl_or hgs.2 hguard.chain).denotes

/-- The text of a condition reads as the condition. -/
theorem denotes_text {c : Condition} (hc : c.all Expr.wellNamed = true) :
    Denotes levels c.text c.norm.tree := by
  induction c with
  | always => exact Denotes.of_text (e := .bool true) rfl
  | under guard inner ih =>
    rw [all, Bool.and_eq_true] at hc
    have hguard := (Denotes.of_text hc.1).paren
    by_cases halways : inner = always
    · subst halways
      exact hguard.mono (Nat.zero_le levels)
    · have hinner : Denotes 3 ("(" ++ inner.text ++ ")") inner.norm.tree :=
        (ih hc.2).paren.mono (Nat.zero_le 3)
      have hand := ((hguard.mono (Nat.zero_le 3)).chain.binary (o := .and) hinner rfl).denotes
      have htext : "(" ++ guard.text ++ ")" ++ " " ++ BinOp.and.symbol ++ " " ++
          ("(" ++ inner.text ++ ")") = (under guard inner).text := by
        rw [text_under guard halways]
        apply String.toList_injective
        simp [BinOp.symbol]
      rw [norm, tree_under guard.norm (norm_ne_always halways), ← htext]
      exact hand.mono (by decide)
  | noneOf guards =>
    rw [all, List.all_eq_true] at hc
    have hany := (denotes_guardsText hc).paren.bang.mono (Nat.zero_le levels)
    have htext : "!" ++ ("(" ++ Stmt.guardsText guards ++ ")") = Stmt.exitText guards := by
      apply String.toList_injective
      simp [Stmt.exitText]
    rwa [htext] at hany

/-- Evaluating the text of a condition tells whether the condition holds. -/
theorem agree_guard_text {c : Condition} (hc : c.all Expr.wellNamed = true) (m : Memory) :
    Agree (Evaluators.standard.guard m c.text) (c.holds m) := by
  rw [(denotes_text hc).standard_guard m, holds_tree]
  exact c.agree_holds_norm m

end Condition

namespace Stmt

variable {p : Action → Bool} {q : Expr → Bool} {s : Stmt} {c : Condition} {a : Option Action}
  {r : Option Stmt}

theorem Step.all_condition (h : Step s c a r) (hs : s.all p q = true) : c.all q = true := by
  induction h with
  | basic a => rfl
  | seq _ ih => exact ih (all_seq.1 hs).1
  | choice ho _ ih =>
    obtain ⟨hguard, hbody⟩ := (all_choice.1 hs).2 _ ho
    rw [Condition.all, hguard, ih hbody]
    rfl
  | loop ho _ ih =>
    obtain ⟨hguard, hbody⟩ := (all_loop.1 hs).2 _ ho
    rw [Condition.all, hguard, ih hbody]
    rfl
  | exit os =>
    rw [Condition.all, List.all_map, List.all_eq_true]
    exact fun o ho => ((all_loop.1 hs).2 o ho).1

theorem Step.all_action (h : Step s c a r) (hs : s.all p q = true) : ∀ b ∈ a, p b = true := by
  induction h with
  | basic a =>
    rintro b ⟨⟩
    exact hs
  | seq _ ih => exact ih (all_seq.1 hs).1
  | choice ho _ ih => exact ih ((all_choice.1 hs).2 _ ho).2
  | loop ho _ ih => exact ih ((all_loop.1 hs).2 _ ho).2
  | exit os => simp

/-- Every atomic block contains an assignment. -/
def filled (s : Stmt) : Bool := s.all Action.filled fun _ => true

/-- What the action of a step does; a step without action changes nothing. -/
def runAction (m : Memory) : Option Action → Except EvalError Memory
  | none => .ok m
  | some a => a.run m

/-- Every text in the program graph means what the step means that it was made from. -/
theorem compile_texts_agree (s : Stmt) (hs : s.wellFormed = true) (hfilled : s.filled = true) :
    ∃ pg, s.compile = .ok pg ∧ ∀ e ∈ pg.edges,
      (∃ r c a r', Reaches s r ∧ Step r c a r' ∧ e = edge r c a r') ∧
      ∀ r c a r', Reaches s r → Step r c a r' → e = edge r c a r' → ∀ m : Memory,
        Agree (Evaluators.standard.guard m e.guard) (c.holds m) ∧
        Agree (Evaluators.standard.effect m e.action) (runAction m a) := by
  refine ⟨_, s.compile_eq_ok, fun e he => ⟨?_, ?_⟩⟩
  · exact (mem_edges_iff hs s.compile_eq_ok).mp he
  · rintro r c a r' hr hstep rfl m
    constructor
    · exact Condition.agree_guard_text (hstep.all_condition (hr.all hs)) m
    · cases a with
      | none => exact .ok m
      | some a =>
        apply Action.agree_effect_text
        · exact hstep.all_action (hr.all hs) a rfl
        · exact hstep.all_action (hr.all hfilled) a rfl

/-- Guards that need their parentheses, a signed literal, an atomic block and half a rendezvous. -/
def relay : Stmt :=
  loop
    [(.binary .or (.var "x") (.not (.binary .sub (.var "y") (.neg (.int 1)))),
      choice [(.binary .and (.bool true) (.binary .lt (.var "a") (.var "b")),
        seq (basic (.atomic [("x", .int 1), ("y", .var "x")])) (basic (.send "_r" (.var "y"))))]),
     (.bool false, loop [(.var "z", basic (.receive "c" "z"))])]

/-- A memory in which the first option of `relay` can be taken. -/
def relayReady : Memory := ((Memory.set ∅ "a" (.int 0)).set "b" (.int 2)).set "x" (.int 5)

/-- The edge into the atomic block among others: its guard holds, and its action sets `y` to what it
has set `x` to. -/
theorem compile_relay_texts_agree :
    relay.wellFormed = true ∧ relay.filled = true ∧
      ∃ pg, relay.compile = .ok pg ∧
        (∀ e ∈ pg.edges,
          (∃ r c a r', Reaches relay r ∧ Step r c a r' ∧ e = edge r c a r') ∧
          ∀ r c a r', Reaches relay r → Step r c a r' → e = edge r c a r' → ∀ m : Memory,
            Agree (Evaluators.standard.guard m e.guard) (c.holds m) ∧
            Agree (Evaluators.standard.effect m e.action) (runAction m a)) ∧
        ∃ e ∈ pg.edges, e.guard = "(x || !(y - -1)) && ((true && a < b))" ∧
          e.action = "atomic\x7bx := 1; y := x\x7d" ∧
          Evaluators.standard.guard relayReady e.guard = .ok true ∧
          Evaluators.standard.effect relayReady e.action =
            .ok ((relayReady.set "x" (.int 1)).set "y" (.int 1)) := by
  have hs : relay.wellFormed = true := by decide
  obtain ⟨pg, hpg, hall⟩ := compile_texts_agree relay hs (by decide)
  obtain ⟨c, r', hstep, hguard, hholds⟩ : ∃ c r',
      Step relay c (some (.atomic [("x", .int 1), ("y", .var "x")])) r' ∧
        c.text = "(x || !(y - -1)) && ((true && a < b))" ∧ c.holds relayReady = .ok true :=
    ⟨_, _, .loop List.mem_cons_self (.choice List.mem_cons_self (.seq (.basic _))), rfl, rfl⟩
  have he := (mem_edges_iff hs hpg).mpr ⟨relay, c, _, r', .refl, hstep, rfl⟩
  obtain ⟨hagree, hagree'⟩ := (hall _ he).2 relay c _ r' .refl hstep rfl relayReady
  exact ⟨hs, by decide, pg, hpg, hall, _, he, hguard, rfl, hagree.eq_ok_iff.mpr hholds,
    hagree'.eq_ok_iff.mpr rfl⟩

end Stmt

end OmegaCheck
