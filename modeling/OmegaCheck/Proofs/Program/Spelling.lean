import OmegaCheck.Proofs.Program.Printing

/-!
# Spelling of programs

The text of a program is put together from names, numbers and a fixed list of symbols. So what holds
of these, and of two texts written one after the other if it holds of both, holds of every program.
Main use: a character that no name, number or symbol contains is in no program.
-/

namespace OmegaCheck

open Lexeme

section Identifiers

variable {name : String}

theorem continuesWord_of_mem {c : Char} (h : isIdentifier name = true) (hc : c ∈ name.toList) :
    continuesWord c = true := by
  unfold isIdentifier at h
  split at h
  · cases h
  · next d ds hname =>
    simp only [Bool.and_eq_true] at h
    rw [hname, List.mem_cons] at hc
    obtain rfl | hc := hc
    · have hstart := h.1.1
      rw [startsWord, Bool.or_eq_true] at hstart
      rw [continuesWord, Bool.or_eq_true, Bool.or_eq_true]
      exact hstart.imp_left Or.inl
    · exact List.all_eq_true.mp h.1.2 c hc

theorem not_mem_of_not_continuesWord {c : Char} (hname : isIdentifier name = true)
    (hc : continuesWord c = false) : c ∉ name.toList := by
  intro hmem
  rw [continuesWord_of_mem hname hmem] at hc
  cases hc

end Identifiers

theorem not_mem_repr {c : Char} (hc : continuesWord c = false) (n : Nat) : c ∉ n.repr.toList := by
  intro hmem
  rw [Nat.toList_repr] at hmem
  have hdigit : c.isDigit = true := Nat.isDigit_of_mem_toDigits (by decide) (by decide) hmem
  rw [continuesWord_of_isDigit hdigit] at hc
  cases hc

/-- A text made up of names, numbers and some of the symbols. -/
inductive Spelled (symbols : List String) : String → Prop where
  | empty : Spelled symbols ""
  | name {x : String} (h : isIdentifier x = true) : Spelled symbols x
  | number (n : Nat) : Spelled symbols n.repr
  | symbol {s : String} (h : s ∈ symbols) : Spelled symbols s
  | append {s t : String} (hs : Spelled symbols s) (ht : Spelled symbols t) :
      Spelled symbols (s ++ t)

namespace Spelled

variable {symbols more : List String} {t : String}

theorem mono (h : Spelled symbols t) (hmore : ∀ s ∈ symbols, s ∈ more) : Spelled more t := by
  induction h with
  | empty => exact .empty
  | name h => exact .name h
  | number n => exact .number n
  | symbol h => exact .symbol (hmore _ h)
  | append _ _ ihs iht => exact ihs.append iht

theorem not_mem {c : Char} (h : Spelled symbols t) (hc : continuesWord c = false)
    (hsymbols : ∀ s ∈ symbols, c ∉ s.toList) : c ∉ t.toList := by
  induction h with
  | empty => simp
  | name h => exact not_mem_of_not_continuesWord h hc
  | number n => exact not_mem_repr hc n
  | symbol h => exact hsymbols _ h
  | append _ _ ihs iht => simp [ihs, iht]

theorem decimal (hminus : "-" ∈ symbols) (n : Int) : Spelled symbols (Text.decimal n) := by
  cases n with
  | ofNat n => exact .number n
  | negSucc n => exact (symbol hminus).append (number (n + 1))

theorem separated {separator : String} (hseparator : separator ∈ symbols) {texts : List String}
    (h : ∀ t ∈ texts, Spelled symbols t) : Spelled symbols (Text.separated separator texts) := by
  induction texts with
  | nil => exact .empty
  | cons t texts ih =>
    rw [List.forall_mem_cons] at h
    cases texts with
    | nil => exact h.1
    | cons u texts => exact (h.1.append (.symbol hseparator)).append (ih h.2)

end Spelled

namespace Expr

def symbols : List String :=
  ["true", "false", "-", "!", "(", ")", " ", "||", "&&", "==", "!=", "<", "<=", ">", ">=", "+", "*",
    "/", "%"]

theorem spelled_operandText {t : String} (h : Spelled symbols t) (parenthesized : Bool) :
    Spelled symbols (operandText parenthesized t) := by
  cases parenthesized with
  | false => exact h
  | true => exact ((Spelled.symbol (s := "(") (by decide)).append h).append (.symbol (by decide))

theorem spelled_text {e : Expr} (he : e.wellNamed = true) : Spelled symbols e.text := by
  induction e with
  | int n => exact .decimal (by decide) n.toInt
  | bool b => cases b <;> exact .symbol (by decide)
  | var name => exact .name he
  | neg e ih | not e ih => exact .append (.symbol (by decide)) (spelled_operandText (ih he) _)
  | binary op lhs rhs ihl ihr =>
    rw [wellNamed, Bool.and_eq_true] at he
    have hblank : Spelled symbols " " := .symbol (by decide)
    have hsymbol : Spelled symbols op.symbol := .symbol (by cases op <;> decide)
    have hlhs := spelled_operandText (ihl he.1)
    have hrhs := spelled_operandText (ihr he.2)
    exact ((((hlhs _).append hblank).append hsymbol).append hblank).append (hrhs _)

end Expr

namespace Action

/-- The symbols of a list of assignments. -/
def assignmentSymbols : List String := " := " :: "; " :: Expr.symbols

def symbols : List String := "skip" :: "atomic\x7b" :: "\x7d" :: "?" :: assignmentSymbols

theorem spelled_assignmentText {a : String × Expr} (ha : assignmentWellNamed a = true) :
    Spelled assignmentSymbols (assignmentText a) := by
  rw [assignmentWellNamed, Bool.and_eq_true] at ha
  have hvalue : Spelled assignmentSymbols a.2.text := (Expr.spelled_text ha.2).mono (by decide)
  exact ((Spelled.name ha.1).append (.symbol (by decide))).append hvalue

theorem spelled_assignmentTexts {as : List (String × Expr)}
    (has : as.all assignmentWellNamed = true) :
    Spelled assignmentSymbols (Text.separated "; " (as.map assignmentText)) := by
  refine .separated (by decide) fun t ht => ?_
  obtain ⟨a, ha, rfl⟩ := List.mem_map.mp ht
  exact spelled_assignmentText (List.all_eq_true.mp has a ha)

theorem spelled_text {a : Action} (ha : a.wellNamed = true) : Spelled symbols a.text := by
  cases a with
  | skip => exact .symbol (by decide)
  | assign name value => exact (spelled_assignmentText ha).mono (by decide)
  | atomic as =>
    have hlist : Spelled symbols (Text.separated "; " (as.map assignmentText)) :=
      (spelled_assignmentTexts ha).mono (by decide)
    have hopening : Spelled symbols "atomic\x7b" := .symbol (by decide)
    exact (hopening.append hlist).append (.symbol (by decide))
  | receive channel target =>
    rw [wellNamed, Bool.and_eq_true] at ha
    exact ((Spelled.name ha.1).append (.symbol (by decide))).append (.name ha.2)
  | send channel value =>
    rw [wellNamed, Bool.and_eq_true] at ha
    have hvalue : Spelled symbols value.text := (Expr.spelled_text ha.2).mono (by decide)
    exact ((Spelled.name ha.1).append (.symbol (by decide))).append hvalue

end Action

namespace Stmt

def symbols : List String := "if" :: " fi" :: "do" :: " od" :: " :: " :: " -> " :: Action.symbols

theorem spelled_optionsText {os : List (Expr × Stmt)}
    (h : ∀ o ∈ os, o.1.wellNamed = true ∧ Spelled symbols o.2.text) :
    Spelled symbols (optionsText os) := by
  induction os with
  | nil => exact .empty
  | cons o os ih =>
    rw [List.forall_mem_cons] at h
    have hguard : Spelled symbols (" :: " ++ o.1.text) :=
      .append (.symbol (by decide)) ((Expr.spelled_text h.1.1).mono (by decide))
    have harrow : Spelled symbols " -> " := .symbol (by decide)
    exact ((hguard.append harrow).append h.1.2).append (ih h.2)

theorem spelled_branches {opening closing : String} (hopening : opening ∈ symbols)
    (hclosing : closing ∈ symbols) {os : List (Expr × Stmt)}
    (h : ∀ o ∈ os, o.1.wellNamed = true ∧ Spelled symbols o.2.text) :
    Spelled symbols (opening ++ optionsText os ++ closing) :=
  ((Spelled.symbol hopening).append (spelled_optionsText h)).append (.symbol hclosing)

theorem spelled_text {s : Stmt} (hs : s.wellFormed = true) : Spelled symbols s.text := by
  rw [wellFormed] at hs
  induction s with
  | basic a => exact (Action.spelled_text hs).mono (by decide)
  | seq first second ihfirst ihsecond =>
    rw [all_seq] at hs
    have hsemicolon : Spelled symbols "; " := .symbol (by decide)
    exact ((ihfirst hs.1).append hsemicolon).append (ihsecond hs.2)
  | choice os ih =>
    rw [all_choice] at hs
    refine spelled_branches (by decide) (by decide) fun o ho => ?_
    exact ⟨(hs.2 o ho).1, ih o ho (hs.2 o ho).2⟩
  | loop os ih =>
    rw [all_loop] at hs
    refine spelled_branches (by decide) (by decide) fun o ho => ?_
    exact ⟨(hs.2 o ho).1, ih o ho (hs.2 o ho).2⟩

end Stmt

end OmegaCheck
