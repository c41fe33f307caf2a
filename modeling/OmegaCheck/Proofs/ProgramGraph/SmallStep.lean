import OmegaCheck.Proofs.ProgramGraph.Moves
import OmegaCheck.Proofs.Program.UniqueReading
import Mathlib.Logic.Relation

/-!
# Program graphs follow the steps of the program

A statement runs in small steps: each step has a condition, at most one action, and leaves a
statement to be run or nothing. The program graph of a statement has one location for each text of a
statement that can be left, and its edges are the steps of these statements. Statements with the
same text share a location; they take the same steps up to text, so sharing adds nothing.
-/

namespace OmegaCheck

/-- When a step can be taken. -/
inductive Condition where
  | always
  /-- The guard of an option holds, and then the condition of a step of its body. -/
  | under (guard : Expr) (inner : Condition)
  /-- None of the guards of a loop holds. -/
  | noneOf (guards : List Expr)

namespace Condition

/-- The text of a condition; the one that always holds has none of its own. -/
def text? : Condition → Option String
  | always => none
  | under guard inner => some (Draft.conjunction guard.text inner.text?)
  | noneOf guards => some (Stmt.exitText guards)

def text (c : Condition) : String := c.text?.getD "true"

end Condition

namespace Stmt

/-- What is left to do when `rest` follows what a step left. -/
def thenDo : Option Stmt → Stmt → Stmt
  | none, rest => rest
  | some s, rest => seq s rest

/-- The steps of a statement: the condition, the action, and the statement left to be run. -/
inductive Step : Stmt → Condition → Option Action → Option Stmt → Prop
  | basic (a : Action) : Step (basic a) .always (some a) none
  | seq {s t : Stmt} {c : Condition} {a : Option Action} {r : Option Stmt} :
      Step s c a r → Step (seq s t) c a (some (thenDo r t))
  | choice {os : List (Expr × Stmt)} {o : Expr × Stmt} {c : Condition} {a : Option Action}
      {r : Option Stmt} : o ∈ os → Step o.2 c a r → Step (choice os) (.under o.1 c) a r
  | loop {os : List (Expr × Stmt)} {o : Expr × Stmt} {c : Condition} {a : Option Action}
      {r : Option Stmt} : o ∈ os → Step o.2 c a r →
        Step (loop os) (.under o.1 c) a (some (thenDo r (loop os)))
  | exit (os : List (Expr × Stmt)) : Step (loop os) (.noneOf (os.map Prod.fst)) none none

/-- Running `s` can leave `r`. -/
def Leaves (s r : Stmt) : Prop := ∃ c a, Step s c a (some r)

/-- Running `s` can be over after one step. -/
def Ends (s : Stmt) : Prop := ∃ c a, Step s c a none

/-- After some steps of `s`, `r` is left to be run. -/
def Reaches (s r : Stmt) : Prop := Relation.ReflTransGen Leaves s r

def actionText : Option Action → String
  | none => ""
  | some a => a.text

/-- The location of what is left to be run; nothing is the empty text. -/
def location : Option Stmt → String
  | none => ""
  | some s => s.text

/-- The edge of a step. -/
def edge (s : Stmt) (c : Condition) (a : Option Action) (r : Option Stmt) : Edge String :=
  ⟨s.text, c.text, actionText a, location r⟩

theorem text_ne_empty (s : Stmt) : s.text ≠ "" := by
  cases s with
  | basic a => cases a <;> simp [text, Action.text, Action.assignmentText]
  | _ => simp [text, seqText]

theorem text_thenDo (r : Option Stmt) (t : Stmt) :
    (thenDo r t).text = Draft.continued (location r) t.text := by
  cases r with
  | none => simp [thenDo, location, Draft.continued]
  | some s => rw [thenDo, text, location, Draft.continued, if_neg s.text_ne_empty]

/-- The move of a step. -/
def moveOf (c : Condition) (a : Option Action) (r : Option Stmt) : Move :=
  ⟨c.text?, actionText a, location r⟩

theorem continueWith_moveOf (c : Condition) (a : Option Action) (r : Option Stmt) (t : Stmt) :
    (moveOf c a r).continueWith t.text = moveOf c a (some (thenDo r t)) := by
  simp [moveOf, Move.continueWith, location, text_thenDo]

theorem guardedBy_moveOf (guard : Expr) (c : Condition) (a : Option Action) (r : Option Stmt) :
    (moveOf c a r).guardedBy guard.text = moveOf (.under guard c) a r := rfl

theorem exitMove_eq (os : List (Expr × Stmt)) :
    exitMove os = moveOf (.noneOf (os.map Prod.fst)) none none := rfl

theorem mem_moves {s : Stmt} {m : Move} :
    m ∈ moves s ↔ ∃ c a r, Step s c a r ∧ moveOf c a r = m := by
  induction s generalizing m with
  | basic a =>
    constructor
    · intro hm
      exact ⟨_, _, _, .basic a, (List.mem_singleton.1 hm).symm⟩
    · rintro ⟨c, a, r, ⟨⟩, rfl⟩
      exact List.mem_singleton.2 rfl
  | seq s t ihs _ =>
    rw [moves, List.mem_map]
    constructor
    · rintro ⟨k, hk, rfl⟩
      obtain ⟨c, a, r, hstep, rfl⟩ := ihs.1 hk
      exact ⟨c, a, _, .seq hstep, (continueWith_moveOf c a r t).symm⟩
    · rintro ⟨c, a, r, hstep, rfl⟩
      cases hstep with
      | seq hstep => exact ⟨_, ihs.2 ⟨_, _, _, hstep, rfl⟩, continueWith_moveOf _ _ _ t⟩
  | choice os ih =>
    rw [moves, mem_optionMoves]
    constructor
    · rintro ⟨o, ho, k, hk, rfl⟩
      obtain ⟨c, a, r, hstep, rfl⟩ := (ih o ho).1 hk
      exact ⟨_, a, r, .choice ho hstep, (guardedBy_moveOf o.1 c a r).symm⟩
    · rintro ⟨c, a, r, hstep, rfl⟩
      cases hstep with
      | choice ho hstep =>
        exact ⟨_, ho, _, (ih _ ho).2 ⟨_, _, _, hstep, rfl⟩, guardedBy_moveOf _ _ _ _⟩
  | loop os ih =>
    rw [moves, List.mem_append, List.mem_map, List.mem_singleton, exitMove_eq]
    constructor
    · rintro (⟨k, hk, rfl⟩ | rfl)
      · obtain ⟨o, ho, k', hk', rfl⟩ := mem_optionMoves.1 hk
        obtain ⟨c, a, r, hstep, rfl⟩ := (ih o ho).1 hk'
        refine ⟨_, a, _, .loop ho hstep, ?_⟩
        rw [guardedBy_moveOf, continueWith_moveOf]
      · exact ⟨_, _, _, .exit os, rfl⟩
    · rintro ⟨c, a, r, hstep, rfl⟩
      cases hstep with
      | @loop _ o c a r ho hstep =>
        have hmove := (ih o ho).2 ⟨c, a, r, hstep, rfl⟩
        left
        refine ⟨moveOf (.under o.1 c) a r, ?_, continueWith_moveOf _ _ _ _⟩
        exact mem_optionMoves.2 ⟨o, ho, _, hmove, guardedBy_moveOf _ _ _ _⟩
      | exit => exact .inr rfl

theorem mem_firstEdges {s : Stmt} {e : Edge String} :
    e ∈ s.firstEdges ↔ ∃ c a r, Step s c a r ∧ edge s c a r = e := by
  rw [firstEdges, List.mem_map]
  constructor
  · rintro ⟨m, hm, rfl⟩
    obtain ⟨c, a, r, hstep, rfl⟩ := mem_moves.1 hm
    exact ⟨c, a, r, hstep, rfl⟩
  · rintro ⟨c, a, r, hstep, rfl⟩
    exact ⟨_, mem_moves.2 ⟨c, a, r, hstep, rfl⟩, rfl⟩

section Residuals

variable {s t r : Stmt} {os : List (Expr × Stmt)}

theorem leaves_seq_iff :
    Leaves (seq s t) r ↔ (∃ s', Leaves s s' ∧ r = seq s' t) ∨ Ends s ∧ r = t := by
  constructor
  · rintro ⟨c, a, hstep⟩
    cases hstep with
    | @seq _ _ _ _ r' hstep =>
      cases r' with
      | none => exact .inr ⟨⟨c, a, hstep⟩, rfl⟩
      | some s' => exact .inl ⟨s', ⟨c, a, hstep⟩, rfl⟩
  · rintro (⟨s', ⟨c, a, hstep⟩, rfl⟩ | ⟨⟨c, a, hstep⟩, rfl⟩)
    · exact ⟨c, a, .seq hstep⟩
    · exact ⟨c, a, .seq hstep⟩

theorem leaves_choice_iff : Leaves (choice os) r ↔ ∃ o ∈ os, Leaves o.2 r := by
  constructor
  · rintro ⟨c, a, hstep⟩
    cases hstep with
    | choice ho hstep => exact ⟨_, ho, _, a, hstep⟩
  · rintro ⟨o, ho, c, a, hstep⟩
    exact ⟨_, a, .choice ho hstep⟩

/-- A loop goes on like its body with the loop after it. -/
theorem leaves_loop_iff :
    Leaves (loop os) r ↔ ∃ o ∈ os, Leaves (seq o.2 (loop os)) r := by
  constructor
  · rintro ⟨c, a, hstep⟩
    cases hstep with
    | loop ho hstep => exact ⟨_, ho, _, a, .seq hstep⟩
  · rintro ⟨o, ho, c, a, hstep⟩
    cases hstep with
    | seq hstep => exact ⟨_, a, .loop ho hstep⟩

open Relation

theorem transGen_seq (h : TransGen Leaves (seq s t) r) :
    (∃ s', TransGen Leaves s s' ∧ r = seq s' t) ∨ Reaches t r := by
  induction h with
  | single hleaves =>
    obtain ⟨s', hs', rfl⟩ | ⟨_, rfl⟩ := leaves_seq_iff.1 hleaves
    · exact .inl ⟨s', .single hs', rfl⟩
    · exact .inr .refl
  | tail _ hleaves ih =>
    obtain ⟨s', hs', rfl⟩ | hreach := ih
    · obtain ⟨s'', hs'', rfl⟩ | ⟨_, rfl⟩ := leaves_seq_iff.1 hleaves
      · exact .inl ⟨s'', hs'.tail hs'', rfl⟩
      · exact .inr .refl
    · exact .inr (hreach.tail hleaves)

theorem transGen_choice (h : TransGen Leaves (choice os) r) :
    ∃ o ∈ os, TransGen Leaves o.2 r := by
  obtain ⟨x, hleaves, hrest⟩ := TransGen.head'_iff.1 h
  obtain ⟨o, ho, hbody⟩ := leaves_choice_iff.1 hleaves
  exact ⟨o, ho, TransGen.head' hbody hrest⟩

theorem transGen_loop (h : TransGen Leaves (loop os) r) :
    r = loop os ∨ ∃ o ∈ os, ∃ s', TransGen Leaves o.2 s' ∧ r = seq s' (loop os) := by
  have hloop : ∀ x, Leaves (loop os) x →
      x = loop os ∨ ∃ o ∈ os, ∃ s', TransGen Leaves o.2 s' ∧ x = seq s' (loop os) := by
    intro x hleaves
    obtain ⟨o, ho, hbody⟩ := leaves_loop_iff.1 hleaves
    obtain ⟨s', hs', rfl⟩ | ⟨_, rfl⟩ := leaves_seq_iff.1 hbody
    · exact .inr ⟨o, ho, s', .single hs', rfl⟩
    · exact .inl rfl
  induction h with
  | single hleaves => exact hloop _ hleaves
  | tail _ hleaves ih =>
    obtain rfl | ⟨o, ho, s', hs', rfl⟩ := ih
    · exact hloop _ hleaves
    · obtain ⟨s'', hs'', rfl⟩ | ⟨_, rfl⟩ := leaves_seq_iff.1 hleaves
      · exact .inr ⟨o, ho, s'', hs'.tail hs'', rfl⟩
      · exact .inl rfl

/-- Running `s` can come to an end. -/
def CanEnd (s : Stmt) : Prop := ∃ r, Reaches s r ∧ Ends r

theorem Leaves.seq (h : Leaves s r) (t : Stmt) : Leaves (seq s t) (seq r t) :=
  leaves_seq_iff.2 (.inl ⟨r, h, rfl⟩)

theorem Reaches.seq (h : Reaches s r) (t : Stmt) : Reaches (seq s t) (seq r t) :=
  ReflTransGen.lift (fun s => Stmt.seq s t) (fun _ _ h => h.seq t) _ _ h

theorem transGen_seq_left (h : TransGen Leaves s r) (t : Stmt) :
    TransGen Leaves (seq s t) (seq r t) :=
  TransGen.lift (fun s => Stmt.seq s t) (fun _ _ h => h.seq t) _ _ h

theorem CanEnd.transGen_seq (h : CanEnd s) (t : Stmt) : TransGen Leaves (seq s t) t := by
  obtain ⟨r, hreach, hends⟩ := h
  exact TransGen.tail' (hreach.seq t) (leaves_seq_iff.2 (.inr ⟨hends, rfl⟩))

theorem transGen_choice_of_mem {o : Expr × Stmt} (ho : o ∈ os) (h : TransGen Leaves o.2 r) :
    TransGen Leaves (choice os) r := by
  obtain ⟨x, hleaves, hrest⟩ := TransGen.head'_iff.1 h
  exact TransGen.head' (leaves_choice_iff.2 ⟨o, ho, hleaves⟩) hrest

theorem transGen_loop_of_mem {o : Expr × Stmt} (ho : o ∈ os)
    (h : TransGen Leaves (Stmt.seq o.2 (loop os)) r) : TransGen Leaves (loop os) r := by
  obtain ⟨x, hleaves, hrest⟩ := TransGen.head'_iff.1 h
  exact TransGen.head' (leaves_loop_iff.2 ⟨o, ho, hleaves⟩) hrest

theorem canEnd {p : Action → Bool} {q : Expr → Bool} (s : Stmt) (hs : s.all p q = true) :
    CanEnd s := by
  induction s with
  | basic a => exact ⟨basic a, .refl, _, _, .basic a⟩
  | seq s t ihs iht =>
    rw [all_seq] at hs
    obtain ⟨r, hreach, hends⟩ := iht hs.2
    exact ⟨r, ((ihs hs.1).transGen_seq t).to_reflTransGen.trans hreach, hends⟩
  | choice os ih =>
    rw [all_choice] at hs
    obtain ⟨o, ho⟩ := List.exists_mem_of_ne_nil os hs.1
    obtain ⟨r, hreach, hends⟩ := ih o ho (hs.2 o ho).2
    obtain rfl | hmore := reflTransGen_iff_eq_or_transGen.1 hreach
    · obtain ⟨c, a, hstep⟩ := hends
      exact ⟨choice os, .refl, _, a, .choice ho hstep⟩
    · exact ⟨r, (transGen_choice_of_mem ho hmore).to_reflTransGen, hends⟩
  | loop os ih => exact ⟨loop os, .refl, _, _, .exit os⟩

/-- The edges behind the first ones leave the statements that are left after at least one step. -/
theorem mem_laterEdges {p : Action → Bool} {q : Expr → Bool} {s : Stmt} (hs : s.all p q = true)
    {e : Edge String} :
    e ∈ s.laterEdges ↔ ∃ r, TransGen Leaves s r ∧ e ∈ r.firstEdges := by
  induction s generalizing e with
  | basic a =>
    constructor
    · intro he
      cases he
    · rintro ⟨r, hr, _⟩
      obtain ⟨x, ⟨c, a, hstep⟩, _⟩ := TransGen.head'_iff.1 hr
      cases hstep
  | seq s t ihs iht =>
    rw [all_seq] at hs
    rw [laterEdges, List.mem_append, List.mem_append, List.mem_map, or_assoc]
    constructor
    · rintro (⟨e, he, rfl⟩ | he | he)
      · obtain ⟨r, hr, he⟩ := (ihs hs.1).1 he
        refine ⟨Stmt.seq r t, transGen_seq_left hr t, ?_⟩
        rw [firstEdges_seq]
        exact List.mem_map_of_mem he
      · -- The edges of `t` are there whatever `s` does, so `t` has to be reached.
        exact ⟨t, (canEnd s hs.1).transGen_seq t, he⟩
      · obtain ⟨r, hr, he⟩ := (iht hs.2).1 he
        exact ⟨r, ((canEnd s hs.1).transGen_seq t).trans hr, he⟩
    · rintro ⟨r, hr, he⟩
      obtain ⟨s', hs', rfl⟩ | hreach := transGen_seq hr
      · rw [firstEdges_seq, List.mem_map] at he
        obtain ⟨e, he, rfl⟩ := he
        exact .inl ⟨e, (ihs hs.1).2 ⟨s', hs', he⟩, rfl⟩
      · obtain rfl | hmore := reflTransGen_iff_eq_or_transGen.1 hreach
        · exact .inr (.inl he)
        · exact .inr (.inr ((iht hs.2).2 ⟨r, hmore, he⟩))
  | choice os ih =>
    rw [all_choice] at hs
    have hbody := fun o ho => (hs.2 o ho).2
    rw [laterEdges, mem_laterOptionEdges]
    constructor
    · rintro ⟨o, ho, he⟩
      obtain ⟨r, hr, he⟩ := (ih o ho (hbody o ho)).1 he
      exact ⟨r, transGen_choice_of_mem ho hr, he⟩
    · rintro ⟨r, hr, he⟩
      obtain ⟨o, ho, hr⟩ := transGen_choice hr
      exact ⟨o, ho, (ih o ho (hbody o ho)).2 ⟨r, hr, he⟩⟩
  | loop os ih =>
    rw [all_loop] at hs
    have hbody := fun o ho => (hs.2 o ho).2
    rw [laterEdges, List.mem_append, List.mem_map]
    constructor
    · rintro (⟨e, he, rfl⟩ | he)
      · obtain ⟨o, ho, he⟩ := mem_laterOptionEdges.1 he
        obtain ⟨r, hr, he⟩ := (ih o ho (hbody o ho)).1 he
        refine ⟨Stmt.seq r (loop os), transGen_loop_of_mem ho (transGen_seq_left hr _), ?_⟩
        rw [firstEdges_seq]
        exact List.mem_map_of_mem he
      · -- The loop is left again once the body of an option has come to its end.
        obtain ⟨o, ho⟩ := List.exists_mem_of_ne_nil os hs.1
        exact ⟨loop os, transGen_loop_of_mem ho ((canEnd o.2 (hbody o ho)).transGen_seq _), he⟩
    · rintro ⟨r, hr, he⟩
      obtain rfl | ⟨o, ho, s', hs', rfl⟩ := transGen_loop hr
      · exact .inr he
      · rw [firstEdges_seq, List.mem_map] at he
        obtain ⟨e, he, rfl⟩ := he
        exact .inl ⟨e, mem_laterOptionEdges.2 ⟨o, ho, (ih o ho (hbody o ho)).2 ⟨s', hs', he⟩⟩, rfl⟩

theorem mem_edges {p : Action → Bool} {q : Expr → Bool} (hs : s.all p q = true) {e : Edge String} :
    e ∈ s.firstEdges ++ s.laterEdges ↔ ∃ r, Reaches s r ∧ e ∈ r.firstEdges := by
  rw [List.mem_append, mem_laterEdges hs]
  constructor
  · rintro (he | ⟨r, hr, he⟩)
    · exact ⟨s, .refl, he⟩
    · exact ⟨r, hr.to_reflTransGen, he⟩
  · rintro ⟨r, hr, he⟩
    obtain rfl | hr := reflTransGen_iff_eq_or_transGen.1 hr
    · exact .inl he
    · exact .inr ⟨r, hr, he⟩

theorem Step.all_residual {p : Action → Bool} {q : Expr → Bool} {c : Condition} {a : Option Action}
    {r : Option Stmt} (h : Step s c a r) (hs : s.all p q = true) :
    ∀ r' ∈ r, r'.all p q = true := by
  have hthenDo : ∀ (r : Option Stmt) (t : Stmt), (∀ r' ∈ r, r'.all p q = true) →
      t.all p q = true → (thenDo r t).all p q = true := by
    intro r t hr ht
    cases r with
    | none => exact ht
    | some r => exact all_seq.2 ⟨hr r rfl, ht⟩
  induction h with
  | basic a => simp
  | seq _ ih =>
    rw [all_seq] at hs
    rintro r' ⟨⟩
    exact hthenDo _ _ (ih hs.1) hs.2
  | choice ho _ ih => exact ih ((all_choice.1 hs).2 _ ho).2
  | loop ho _ ih =>
    rintro r' ⟨⟩
    exact hthenDo _ _ (ih ((all_loop.1 hs).2 _ ho).2) hs
  | exit os => simp

theorem Reaches.all {p : Action → Bool} {q : Expr → Bool} (h : Reaches s r)
    (hs : s.all p q = true) : r.all p q = true := by
  induction h with
  | refl => exact hs
  | tail _ hleaves ih =>
    obtain ⟨c, a, hstep⟩ := hleaves
    exact hstep.all_residual ih _ rfl

end Residuals

end Stmt

end OmegaCheck
