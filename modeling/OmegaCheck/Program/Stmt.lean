import OmegaCheck.Program.Expr

/-!
# Statements

Programs of guarded commands: basic actions, sequences, guarded choice and guarded loops. A channel
whose name starts with an underscore is a rendezvous channel, any other one is a queue. The text of
a statement doubles as the name of the control point in front of it.
-/

namespace OmegaCheck

/-- A basic statement. -/
inductive Action where
  | skip
  | assign (name : String) (value : Expr)
  /-- Several assignments in one step, performed in order. -/
  | atomic (assignments : List (String × Expr))
  | receive (channel target : String)
  | send (channel : String) (value : Expr)
  deriving DecidableEq

namespace Action

def assignmentText (a : String × Expr) : String := a.1 ++ " := " ++ a.2.text

def text : Action → String
  | skip => "skip"
  | assign name value => assignmentText (name, value)
  | atomic assignments =>
    "atomic\x7b" ++ Text.separated "; " (assignments.map assignmentText) ++ "\x7d"
  | receive channel target => channel ++ "?" ++ target
  | send channel value => channel ++ "!" ++ value.text

end Action

/-- A statement. An option is a guard with the statement it opens. -/
inductive Stmt where
  | basic (action : Action)
  | seq (first second : Stmt)
  /-- Runs one option whose guard holds. -/
  | choice (options : List (Expr × Stmt))
  /-- Repeats options whose guard holds, until no guard holds. -/
  | loop (options : List (Expr × Stmt))

namespace Stmt

/-- The text of `first` followed by `rest`. -/
def seqText (first rest : String) : String := first ++ "; " ++ rest

mutual
def text : Stmt → String
  | basic action => action.text
  | seq first second => seqText first.text second.text
  | choice options => "if" ++ optionsText options ++ " fi"
  | loop options => "do" ++ optionsText options ++ " od"

def optionsText : List (Expr × Stmt) → String
  | [] => ""
  | (guard, body) :: rest => " :: " ++ guard.text ++ " -> " ++ body.text ++ optionsText rest
end

mutual
def same : Stmt → Stmt → Bool
  | basic a, basic b => a = b
  | seq a b, seq c d => same a c && same b d
  | choice os, choice ps => sameOptions os ps
  | loop os, loop ps => sameOptions os ps
  | _, _ => false

def sameOptions : List (Expr × Stmt) → List (Expr × Stmt) → Bool
  | [], [] => true
  | (g, s) :: os, (h, t) :: ps => g = h && same s t && sameOptions os ps
  | _, _ => false
end

mutual
theorem same_self : (s : Stmt) → same s s = true
  | basic a => by simp [same]
  | seq a b => by simp [same, same_self a, same_self b]
  | choice os => by simp [same, sameOptions_self os]
  | loop os => by simp [same, sameOptions_self os]

theorem sameOptions_self : (os : List (Expr × Stmt)) → sameOptions os os = true
  | [] => by simp [sameOptions]
  | (g, s) :: os => by simp [sameOptions, same_self s, sameOptions_self os]
end

mutual
theorem eq_of_same : (s t : Stmt) → same s t = true → s = t
  | basic a, t, h => by
    cases t <;> simp [same] at h
    rw [h]
  | seq a b, t, h => by
    cases t <;> simp [same] at h
    rw [eq_of_same a _ h.1, eq_of_same b _ h.2]
  | choice os, t, h => by
    cases t <;> simp [same] at h
    rw [eq_of_sameOptions os _ h]
  | loop os, t, h => by
    cases t <;> simp [same] at h
    rw [eq_of_sameOptions os _ h]

theorem eq_of_sameOptions :
    (os ps : List (Expr × Stmt)) → sameOptions os ps = true → os = ps
  | [], ps, h => by
    cases ps <;> simp [sameOptions] at h
    rfl
  | (g, s) :: os, ps, h => by
    cases ps with
    | nil => simp [sameOptions] at h
    | cons p ps =>
      simp only [sameOptions, Bool.and_eq_true, decide_eq_true_eq] at h
      rw [h.1.1, eq_of_same s _ h.1.2, eq_of_sameOptions os _ h.2]
end

theorem same_eq_true_iff {s t : Stmt} : same s t = true ↔ s = t :=
  ⟨eq_of_same s t, fun h => h ▸ same_self s⟩

instance : DecidableEq Stmt := fun _ _ => decidable_of_iff _ same_eq_true_iff

end Stmt

end OmegaCheck
