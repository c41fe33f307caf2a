import OmegaCheck.Proofs.Program.Acceptance
import OmegaCheck.Proofs.ProgramGraph.Meaning

/-!
# Parsing undoes printing

The text of an expression, action or statement is read as its normal form, in which a minus sign
before a literal belongs to the literal and sequences are nested to the left. The normal form of an
expression has the value of the expression, that of an action the effect of the action, and that of a
statement takes the steps of the statement.
-/

namespace OmegaCheck

namespace Agree

variable {α : Type} {x y z : Except EvalError α}

theorem symm (h : Agree x y) : Agree y x := by
  cases h with
  | ok v => exact .ok v
  | error he hf => exact .error hf he

theorem trans (h : Agree x y) (k : Agree y z) : Agree x z := by
  cases h with
  | ok v => exact k
  | error he hf =>
    cases k with
    | error _ hg => exact .error he hg

end Agree

theorem Expr.wellNamed_norm (e : Expr) : e.norm.wellNamed = e.wellNamed := by
  induction e with
  | int n => rfl
  | bool b => rfl
  | var name => rfl
  | neg e ih =>
    by_cases hlit : ∃ n, 0 ≤ n ∧ e = int n
    · obtain ⟨n, hn, rfl⟩ := hlit
      rw [norm, if_pos hn]
      rfl
    · rw [norm_neg_of_ne fun n hn he => hlit ⟨n, hn, he⟩]
      exact ih
  | not e ih => exact ih
  | binary op lhs rhs ihl ihr => rw [norm, wellNamed, wellNamed, ihl, ihr]

namespace Action

theorem assignmentWellNamed_norm (a : String × Expr) :
    assignmentWellNamed (a.1, a.2.norm) = assignmentWellNamed a := by
  rw [assignmentWellNamed, assignmentWellNamed, Expr.wellNamed_norm]

theorem accepted_norm (a : Action) : a.norm.accepted = a.accepted := by
  cases a with
  | atomic as =>
    simp [accepted, norm, mapExprs, wellNamed, filled, Function.comp_def, assignmentWellNamed_norm]
  | assign name value =>
    simp [accepted, norm, mapExprs, wellNamed, filled, assignmentWellNamed_norm (name, value)]
  | _ => simp [accepted, norm, mapExprs, wellNamed, filled, Expr.wellNamed_norm]

theorem run_atomic (m : Memory) (as : List (String × Expr)) :
    (atomic as).run m = assignAll m as := by
  induction as generalizing m with
  | nil => rfl
  | cons a as ih =>
    rw [assignAll, run, List.foldlM_cons, bind_assoc]
    exact bind_congr fun v => ih (m.set a.1 (.int v))

/-- Reading the text of an action does not change what the action does. -/
theorem agree_run_norm (m : Memory) (a : Action) : Agree (a.norm.run m) (a.run m) := by
  cases a with
  | skip => exact .ok m
  | assign name value =>
    apply (value.agree_eval_norm m).bind
    intro v
    exact .ok _
  | atomic as =>
    rw [norm, mapExprs, run_atomic]
    exact agree_assignAll_norm m as
  | receive channel target =>
    by_cases hchannel : isRendezvousChannel channel = true
    · simp only [norm, mapExprs, run, if_pos hchannel]
      exact .error rfl rfl
    · simp only [norm, mapExprs, run, if_neg hchannel]
      apply (m.agree_readQueue channel).bind
      intro messages
      cases messages with
      | nil => exact .error rfl rfl
      | cons v messages => exact .ok _
  | send channel value =>
    by_cases hchannel : isRendezvousChannel channel = true
    · simp only [norm, mapExprs, run, if_pos hchannel]
      exact .error rfl rfl
    · simp only [norm, mapExprs, run, if_neg hchannel]
      apply (m.agree_readQueue channel).bind
      intro messages
      apply (value.agree_eval_norm m).bind
      intro v
      exact .ok _

/-- The evaluators do the same on the text of the normal form. -/
theorem agree_effect_text_norm (m : Memory) {a : Action} (ha : a.accepted = true) :
    Agree (Evaluators.standard.effect m a.norm.text) (Evaluators.standard.effect m a.text) := by
  have hnorm := Bool.and_eq_true_iff.mp (a.accepted_norm.trans ha)
  rw [accepted, Bool.and_eq_true] at ha
  have hread := agree_effect_text hnorm.1 hnorm.2 m
  exact (hread.trans (a.agree_run_norm m)).trans (agree_effect_text ha.1 ha.2 m).symm

end Action

namespace Stmt

section Steps

variable {s t first : Stmt} {os : List (Expr × Stmt)} {b : Action} {c : Condition}
  {a : Option Action} {r : Option Stmt}

theorem step_basic_iff : Step (basic b) c a r ↔ c = .always ∧ a = some b ∧ r = none := by
  constructor
  · rintro ⟨⟩
    exact ⟨rfl, rfl, rfl⟩
  · rintro ⟨rfl, rfl, rfl⟩
    exact .basic b

theorem step_seq_iff : Step (seq s t) c a r ↔ ∃ r₀, Step s c a r₀ ∧ r = some (thenDo r₀ t) := by
  constructor
  · rintro (_ | hstep)
    exact ⟨_, hstep, rfl⟩
  · rintro ⟨r₀, hstep, rfl⟩
    exact .seq hstep

theorem step_choice_iff :
    Step (choice os) c a r ↔ ∃ o ∈ os, ∃ c₀, Step o.2 c₀ a r ∧ c = .under o.1 c₀ := by
  constructor
  · rintro (_ | _ | ⟨ho, hstep⟩)
    exact ⟨_, ho, _, hstep, rfl⟩
  · rintro ⟨o, ho, c₀, hstep, rfl⟩
    exact .choice ho hstep

theorem step_loop_iff :
    Step (loop os) c a r ↔
      (∃ o ∈ os, ∃ c₀ r₀, Step o.2 c₀ a r₀ ∧ c = .under o.1 c₀ ∧
        r = some (thenDo r₀ (loop os))) ∨
      c = .noneOf (os.map Prod.fst) ∧ a = none ∧ r = none := by
  constructor
  · intro h
    cases h with
    | loop ho hstep => exact .inl ⟨_, ho, _, _, hstep, rfl, rfl⟩
    | exit => exact .inr ⟨rfl, rfl, rfl⟩
  · rintro (⟨o, ho, c₀, r₀, hstep, rfl, rfl⟩ | ⟨rfl, rfl, rfl⟩)
    · exact .loop ho hstep
    · exact .exit os

/-- The normal form of what is left when `t` follows; what a step left is in normal form already. -/
def attachTo : Option Stmt → Stmt → Stmt
  | none, t => t.norm
  | some s, t => attachWith Action.norm Expr.norm s t

theorem norm_thenDo (r : Option Stmt) (t : Stmt) :
    (thenDo r t).norm = attachTo (r.map norm) t := by
  cases r <;> rfl

theorem step_attachWith_of_simple
    (hattach : ∀ s, attachWith Action.norm Expr.norm s t = .seq s t.norm) :
    Step (attachWith Action.norm Expr.norm first t) c a r ↔
      ∃ r₀, Step first c a r₀ ∧ r = some (attachTo r₀ t) := by
  have hleft (r₀ : Option Stmt) : thenDo r₀ t.norm = attachTo r₀ t := by
    cases r₀ with
    | none => rfl
    | some s => exact (hattach s).symm
  rw [hattach, step_seq_iff]
  simp only [hleft]

theorem step_attachWith_iff :
    Step (attachWith Action.norm Expr.norm first t) c a r ↔
      ∃ r₀, Step first c a r₀ ∧ r = some (attachTo r₀ t) := by
  induction t generalizing first r with
  | basic b => exact step_attachWith_of_simple fun _ => rfl
  | choice os _ => exact step_attachWith_of_simple fun _ => rfl
  | loop os _ => exact step_attachWith_of_simple fun _ => rfl
  | seq t u iht ihu =>
    -- What is left of `first` takes in `t` and then `u`, as `first` itself does.
    have hleft (r₀ : Option Stmt) : attachTo (some (attachTo r₀ t)) u = attachTo r₀ (.seq t u) := by
      cases r₀ <;> rfl
    rw [attachWith, ihu]
    constructor
    · rintro ⟨r₁, hstep, rfl⟩
      obtain ⟨r₀, hstep₀, rfl⟩ := iht.1 hstep
      exact ⟨r₀, hstep₀, by rw [hleft]⟩
    · rintro ⟨r₀, hstep, rfl⟩
      exact ⟨_, iht.2 ⟨r₀, hstep, rfl⟩, by rw [hleft]⟩

theorem norm_choice (os : List (Expr × Stmt)) :
    (choice os).norm = choice (os.map fun o => (o.1.norm, o.2.norm)) := by
  rw [norm, nestWith, nestOptionsWith_eq_map]
  rfl

theorem norm_loop (os : List (Expr × Stmt)) :
    (loop os).norm = loop (os.map fun o => (o.1.norm, o.2.norm)) := by
  rw [norm, nestWith, nestOptionsWith_eq_map]
  rfl

/-- The steps of the normal form are the steps of the statement, put into normal form. -/
theorem step_norm_iff :
    Step s.norm c a r ↔ ∃ c₀ a₀ r₀, Step s c₀ a₀ r₀ ∧ c = c₀.norm ∧ a = a₀.map Action.norm ∧
      r = r₀.map norm := by
  induction s generalizing c a r with
  | basic b =>
    constructor
    · intro h
      obtain ⟨rfl, rfl, rfl⟩ := step_basic_iff.1 h
      exact ⟨_, _, _, .basic b, rfl, rfl, rfl⟩
    · rintro ⟨c₀, a₀, r₀, hstep, rfl, rfl, rfl⟩
      obtain ⟨rfl, rfl, rfl⟩ := step_basic_iff.1 hstep
      exact .basic b.norm
  | seq s t ihs _ =>
    rw [norm, nestWith, ← norm, step_attachWith_iff]
    constructor
    · rintro ⟨r₁, hstep, rfl⟩
      obtain ⟨c₀, a₀, r₀, hstep₀, rfl, rfl, rfl⟩ := ihs.1 hstep
      exact ⟨c₀, a₀, _, .seq hstep₀, rfl, rfl, by rw [Option.map_some, norm_thenDo]⟩
    · rintro ⟨c₀, a₀, r₀, hstep, rfl, rfl, rfl⟩
      obtain ⟨r₁, hstep₀, rfl⟩ := step_seq_iff.1 hstep
      exact ⟨_, ihs.2 ⟨c₀, a₀, r₁, hstep₀, rfl, rfl, rfl⟩, by rw [Option.map_some, norm_thenDo]⟩
  | choice os ih =>
    rw [norm_choice, step_choice_iff]
    constructor
    · rintro ⟨o, ho, c₁, hstep, rfl⟩
      obtain ⟨o, ho₀, rfl⟩ := List.mem_map.1 ho
      obtain ⟨c₀, a₀, r₀, hstep₀, rfl, rfl, rfl⟩ := (ih o ho₀).1 hstep
      exact ⟨_, a₀, r₀, .choice ho₀ hstep₀, rfl, rfl, rfl⟩
    · rintro ⟨c₀, a₀, r₀, hstep, rfl, rfl, rfl⟩
      obtain ⟨o, ho, c₁, hstep₀, rfl⟩ := step_choice_iff.1 hstep
      exact ⟨_, List.mem_map_of_mem ho, _, (ih o ho).2 ⟨c₁, a₀, r₀, hstep₀, rfl, rfl, rfl⟩, rfl⟩
  | loop os ih =>
    have hguards : (os.map fun o => (o.1.norm, o.2.norm)).map Prod.fst =
        (os.map Prod.fst).map Expr.norm := by simp
    have hback (r₀ : Option Stmt) : thenDo (r₀.map norm) (loop os).norm =
        (thenDo r₀ (loop os)).norm := by cases r₀ <;> rfl
    rw [norm_loop, step_loop_iff, hguards, ← norm_loop]
    constructor
    · rintro (⟨o, ho, c₁, r₁, hstep, rfl, rfl⟩ | ⟨rfl, rfl, rfl⟩)
      · obtain ⟨o, ho₀, rfl⟩ := List.mem_map.1 ho
        obtain ⟨c₀, a₀, r₀, hstep₀, rfl, rfl, rfl⟩ := (ih o ho₀).1 hstep
        exact ⟨_, a₀, _, .loop ho₀ hstep₀, rfl, rfl, by rw [hback, Option.map_some]⟩
      · exact ⟨_, _, _, .exit os, rfl, rfl, rfl⟩
    · rintro ⟨c₀, a₀, r₀, hstep, rfl, rfl, rfl⟩
      obtain ⟨o, ho, c₁, r₁, hstep₀, rfl, rfl⟩ | ⟨rfl, rfl, rfl⟩ := step_loop_iff.1 hstep
      · exact .inl ⟨_, List.mem_map_of_mem ho, _, _, (ih o ho).2 ⟨c₁, a₀, r₁, hstep₀, rfl, rfl, rfl⟩,
          rfl, by rw [hback, Option.map_some]⟩
      · exact .inr ⟨rfl, rfl, rfl⟩

end Steps

theorem agree_runAction_norm (m : Memory) (a : Option Action) :
    Agree (runAction m (a.map Action.norm)) (runAction m a) := by
  cases a with
  | none => exact .ok m
  | some a => exact a.agree_run_norm m

/-- Two steps that can be taken in the same memories, have the same effect there and leave
statements related by `R`. -/
structure Matches (R : Stmt → Stmt → Prop) (c : Condition) (a : Option Action) (r : Option Stmt)
    (c' : Condition) (a' : Option Action) (r' : Option Stmt) : Prop where
  condition : ∀ m, Agree (c.holds m) (c'.holds m)
  action : ∀ m, Agree (runAction m a) (runAction m a')
  left : Option.Rel R r r'

/-- Each step of one of two related statements is matched by a step of the other. -/
structure IsBisimulation (R : Stmt → Stmt → Prop) : Prop where
  forth : ∀ {s t}, R s t → ∀ {c a r}, Step s c a r →
    ∃ c' a' r', Step t c' a' r' ∧ Matches R c a r c' a' r'
  back : ∀ {s t}, R s t → ∀ {c' a' r'}, Step t c' a' r' →
    ∃ c a r, Step s c a r ∧ Matches R c a r c' a' r'

/-- The statements run alike from every memory. -/
def Bisimilar (s t : Stmt) : Prop := ∃ R, IsBisimulation R ∧ R s t

theorem matches_norm (c : Condition) (a : Option Action) (r : Option Stmt) :
    Matches (fun s t => s = t.norm) c.norm (a.map Action.norm) (r.map norm) c a r where
  condition m := c.agree_holds_norm m
  action m := agree_runAction_norm m a
  left := by
    cases r with
    | none => exact .none
    | some s => exact .some rfl

theorem bisimilar_norm (s : Stmt) : Bisimilar s.norm s := by
  refine ⟨fun s t => s = t.norm, ⟨?_, ?_⟩, rfl⟩
  · rintro _ t rfl c a r hstep
    obtain ⟨c₀, a₀, r₀, hstep₀, rfl, rfl, rfl⟩ := step_norm_iff.1 hstep
    exact ⟨c₀, a₀, r₀, hstep₀, matches_norm c₀ a₀ r₀⟩
  · rintro _ t rfl c a r hstep
    exact ⟨_, _, _, step_norm_iff.2 ⟨c, a, r, hstep, rfl, rfl, rfl⟩, matches_norm c a r⟩

end Stmt

theorem parse_text_eq_norm :
    (∀ e : Expr, e.wellNamed = true → Expr.parse e.text = .ok e.norm ∧
      (∀ m, Agree (e.norm.eval m) (e.eval m)) ∧
      ∀ f : Expr, f.wellNamed = true → e.text = f.text → e.norm = f.norm) ∧
    (∀ a : Action, a.accepted = true → Action.parse a.text = .ok a.norm ∧
      (∀ m, Agree (a.norm.run m) (a.run m) ∧
        Agree (Evaluators.standard.effect m a.norm.text) (Evaluators.standard.effect m a.text)) ∧
      ∀ b : Action, b.accepted = true → a.text = b.text → a.norm = b.norm) ∧
    ∀ s : Stmt, s.accepted = true → Stmt.parse s.text = .ok s.norm ∧
      Stmt.Bisimilar s.norm s ∧
      ∀ t : Stmt, t.accepted = true → s.text = t.text → s.norm = t.norm := by
  have hactions (a : Action) (ha : a.accepted = true) : Action.parse a.text = .ok a.norm := by
    rw [Action.accepted, Bool.and_eq_true] at ha
    exact Action.parse_text ha.1 ha.2
  refine ⟨fun e he => ?_, fun a ha => ?_, fun s hs => ?_⟩
  · have hparse := Expr.parse_text he
    exact ⟨hparse, fun m => e.agree_eval_norm m,
      fun f hf htext => Except.ok.inj (by rw [← hparse, htext, Expr.parse_text hf])⟩
  · have hparse := hactions a ha
    exact ⟨hparse, fun m => ⟨a.agree_run_norm m, Action.agree_effect_text_norm m ha⟩,
      fun b hb htext => Except.ok.inj (by rw [← hparse, htext, hactions b hb])⟩
  · have hparse := Stmt.parse_text hs
    exact ⟨hparse, s.bisimilar_norm,
      fun t ht htext => Except.ok.inj (by rw [← hparse, htext, Stmt.parse_text ht])⟩

/-- The smallest number, signs before signs, and a zero with a sign. -/
def Expr.signs : Expr :=
  .binary .sub (.int Int64.minValue) (.neg (.neg (.binary .mul (.neg (.int 0)) (.neg (.int 5)))))

/-- The same text, with one of the signs in its literal. -/
def Expr.fewerSigns : Expr :=
  .binary .sub (.int Int64.minValue) (.neg (.neg (.binary .mul (.neg (.int 0)) (.int (-5)))))

/-- A sequence nested to the right, with a loop in the middle. -/
def Stmt.sweep : Stmt :=
  .seq (.basic (.atomic [("x", .signs)])) (.seq (.loop [(.var "x",
    .seq (.basic (.receive "c" "x")) (.basic (.send "_d" (.neg (.int 1)))))]) (.basic .skip))

/-- The same text, nested to the left. -/
def Stmt.sweepLeft : Stmt :=
  .seq (.seq (.basic (.atomic [("x", .fewerSigns)])) (.loop [(.var "x",
    .seq (.basic (.receive "c" "x")) (.basic (.send "_d" (.int (-1)))))])) (.basic .skip)

theorem parse_text_sweep_eq_norm :
    (Expr.parse Expr.signs.text = .ok Expr.signs.norm ∧
      (∀ m, Agree (Expr.signs.norm.eval m) (Expr.signs.eval m)) ∧
      Expr.signs.norm = Expr.fewerSigns.norm) ∧
    (Action.parse (Action.send "_d" .signs).text = .ok (Action.send "_d" .signs).norm ∧
      (∀ m, Agree ((Action.send "_d" .signs).norm.run m) ((Action.send "_d" .signs).run m)) ∧
      (Action.send "_d" .signs).norm = (Action.send "_d" .fewerSigns).norm) ∧
    Stmt.parse Stmt.sweep.text = .ok Stmt.sweep.norm ∧
      Stmt.Bisimilar Stmt.sweep.norm Stmt.sweep ∧ Stmt.sweep.norm = Stmt.sweepLeft.norm := by
  obtain ⟨hexpr, haction, hstmt⟩ := parse_text_eq_norm
  obtain ⟨hparse, heval, htext⟩ := hexpr .signs (by decide)
  obtain ⟨hparse', hrun, htext'⟩ := haction (.send "_d" .signs) (by decide)
  obtain ⟨hparse'', hsteps, htext''⟩ := hstmt .sweep (by decide)
  exact ⟨⟨hparse, heval, htext .fewerSigns (by decide) (by decide)⟩,
    ⟨hparse', fun m => (hrun m).1, htext' (.send "_d" .fewerSigns) (by decide) (by decide)⟩,
    hparse'', hsteps, htext'' .sweepLeft (by decide) (by decide)⟩

end OmegaCheck
