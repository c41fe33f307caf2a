import OmegaCheck.Proofs.Collecting
import OmegaCheck.Proofs.ProgramGraph.Meaning

/-!
# Names and what they shield

A program reads and writes only the cells that it names. Next to a memory that binds none of these
names it runs as it would alone, and carries that memory along unchanged.
-/

namespace OmegaCheck

namespace Memory

variable {m n k : Memory} {x : String} {N N' : List String}

/-- The cells of both memories, those of the first one where they compete. -/
def union (m n : Memory) : Memory := m.cells.toList.foldr (fun b k => k.set b.1 b.2) n

instance : Union Memory := ⟨union⟩

theorem get?_foldr_set (bindings : List (String × Cell)) (n : Memory) (x : String) :
    (bindings.foldr (fun b k => k.set b.1 b.2) n).get? x = (bindings.lookup x).or (n.get? x) := by
  induction bindings with
  | nil => rfl
  | cons b bindings ih =>
    rw [List.foldr_cons, get?_set, ih, List.lookup_cons]
    by_cases hx : x = b.1
    · simp [hx]
    · simp [hx, beq_eq_false_iff_ne.mpr hx]

theorem lookup_toList (m : Memory) (x : String) : m.cells.toList.lookup x = m.get? x := by
  cases hlookup : m.cells.toList.lookup x with
  | none =>
    rw [List.lookup_eq_none_iff] at hlookup
    refine (Option.eq_none_iff_forall_ne_some.mpr fun c hc => ?_).symm
    have hmem : (x, c) ∈ m.cells.toList := FinMap.mem_toList.mpr hc
    simpa using hlookup _ hmem
  | some c =>
    obtain ⟨front, back, hsplit, _⟩ := List.lookup_eq_some_iff.mp hlookup
    have hmem : (x, c) ∈ m.cells.toList := by simp [hsplit]
    exact (FinMap.mem_toList.mp hmem).symm

theorem get?_union (m n : Memory) (x : String) : (m ∪ n).get? x = (m.get? x).or (n.get? x) := by
  rw [← m.lookup_toList x]
  exact get?_foldr_set _ n x

theorem get?_union_of_none (h : n.get? x = none) : (m ∪ n).get? x = m.get? x := by
  rw [get?_union, h, Option.or_none]

theorem set_union (m n : Memory) (x : String) (c : Cell) : m.set x c ∪ n = (m ∪ n).set x c := by
  refine ext fun y => ?_
  simp only [get?_union, get?_set]
  split <;> rfl

/-- Every cell has its name in the list. -/
def Within (N : List String) (m : Memory) : Prop := ∀ x, m.get? x ≠ none → x ∈ N

/-- No cell has its name in the list. -/
def Avoids (N : List String) (m : Memory) : Prop := ∀ x ∈ N, m.get? x = none

theorem within_empty (N : List String) : Within N ∅ := fun x hx => absurd (FinMap.get?_empty x) hx

theorem Within.avoids (hm : m.Within N) (hN : ∀ x ∈ N', x ∉ N) : m.Avoids N' := by
  intro x hx
  by_contra hne
  exact hN x hx (hm x hne)

theorem union_comm (hm : m.Within N) (hn : n.Avoids N) : m ∪ n = n ∪ m := by
  refine ext fun x => ?_
  rw [get?_union, get?_union]
  cases hx : m.get? x with
  | none => simp
  | some c => simp [hn x (hm x (by simp [hx]))]

/-- The part within the names can be told from the union. -/
theorem eq_of_union_eq {m' n' : Memory} (hm : m.Within N) (hm' : m'.Within N) (hn : n.Avoids N)
    (hn' : n'.Avoids N) (h : m ∪ n = m' ∪ n') : m = m' := by
  refine ext fun x => ?_
  by_cases hx : x ∈ N
  · rw [← get?_union_of_none (hn x hx), h, get?_union_of_none (hn' x hx)]
  · rw [not_imp_comm.mp (hm x) hx, not_imp_comm.mp (hm' x) hx]

theorem readQueue_union (h : n.get? x = none) : (m ∪ n).readQueue x = m.readQueue x := by
  unfold readQueue
  rw [get?_union_of_none h]

end Memory

namespace Expr

def names : Expr → List String
  | int _ | bool _ => []
  | var name => [name]
  | neg e | not e => e.names
  | binary _ lhs rhs => lhs.names ++ rhs.names

theorem eval_union {m n : Memory} {e : Expr} (hn : n.Avoids e.names) :
    e.eval (m ∪ n) = e.eval m := by
  induction e with
  | int k => rfl
  | bool b => rfl
  | var name =>
    rw [eval, eval, Memory.readInt, Memory.readInt,
      Memory.get?_union_of_none (hn name List.mem_cons_self)]
  | neg e ih => rw [eval, eval, ih hn]
  | not e ih => rw [eval, eval, ih hn]
  | binary op lhs rhs ihl ihr =>
    rw [eval, eval, ihl fun x hx => hn x (List.mem_append_left _ hx),
      ihr fun x hx => hn x (List.mem_append_right _ hx)]

theorem holds_union {m n : Memory} {e : Expr} (hn : n.Avoids e.names) :
    e.holds (m ∪ n) = e.holds m := by
  rw [holds, holds, eval_union hn]

end Expr

namespace Condition

def names : Condition → List String
  | always => []
  | under guard inner => guard.names ++ inner.names
  | noneOf guards => guards.flatMap Expr.names

theorem noneHolds_union {m n : Memory} {gs : List Expr} (hn : ∀ g ∈ gs, n.Avoids g.names) :
    noneHolds (m ∪ n) gs = noneHolds m gs := by
  induction gs with
  | nil => rfl
  | cons g gs ih =>
    rw [List.forall_mem_cons] at hn
    rw [noneHolds, noneHolds, Expr.holds_union hn.1, ih hn.2]

theorem holds_union {m n : Memory} {c : Condition} (hn : n.Avoids c.names) :
    c.holds (m ∪ n) = c.holds m := by
  induction c with
  | always => rfl
  | under guard inner ih =>
    rw [holds, holds, Expr.holds_union fun x hx => hn x (List.mem_append_left _ hx),
      ih fun x hx => hn x (List.mem_append_right _ hx)]
  | noneOf guards =>
    exact noneHolds_union fun g hg x hx => hn x (List.mem_flatMap.mpr ⟨g, hg, hx⟩)

end Condition

namespace Action

/-- The variables and channels of an action. -/
def names : Action → List String
  | skip => []
  | assign name value => name :: value.names
  | atomic assignments => assignments.flatMap fun a => a.1 :: a.2.names
  | receive channel target => [channel, target]
  | send channel value => channel :: value.names

variable {m n : Memory} {N : List String}

theorem run_assign_union {name : String} {value : Expr} (hn : n.Avoids (assign name value).names) :
    (assign name value).run (m ∪ n) = ((assign name value).run m).map (· ∪ n) := by
  rw [run, run, Expr.eval_union fun x hx => hn x (List.mem_cons_of_mem _ hx)]
  cases value.eval m with
  | error e => rfl
  | ok v => exact congrArg Except.ok (m.set_union n name (.int v)).symm

theorem run_atomic_union {as : List (String × Expr)} (hn : n.Avoids (atomic as).names) :
    (atomic as).run (m ∪ n) = ((atomic as).run m).map (· ∪ n) := by
  induction as generalizing m with
  | nil => rfl
  | cons a as ih =>
    have hfirst : n.Avoids (assign a.1 a.2).names := fun x hx => hn x (List.mem_append_left _ hx)
    rw [run_atomic_cons, run_atomic_cons, run_assign_union hfirst]
    cases (assign a.1 a.2).run m with
    | error e => rfl
    | ok k => exact ih fun x hx => hn x (List.mem_append_right _ hx)

theorem run_union {a : Action} (hn : n.Avoids a.names) :
    a.run (m ∪ n) = (a.run m).map (· ∪ n) := by
  cases a with
  | skip => rfl
  | assign name value => exact run_assign_union hn
  | atomic as => exact run_atomic_union hn
  | receive channel target =>
    rw [run, run, Memory.readQueue_union (hn channel List.mem_cons_self)]
    split
    · rfl
    · cases m.readQueue channel with
      | error e => rfl
      | ok messages =>
        cases messages with
        | nil => rfl
        | cons v messages =>
          change Except.ok _ = Except.ok (_ ∪ n)
          rw [Memory.set_union, Memory.set_union]
  | send channel value =>
    rw [run, run, Memory.readQueue_union (hn channel List.mem_cons_self),
      Expr.eval_union fun x hx => hn x (List.mem_cons_of_mem _ hx)]
    split
    · rfl
    · cases m.readQueue channel with
      | error e => rfl
      | ok messages =>
        cases value.eval m with
        | error e => rfl
        | ok v => exact congrArg Except.ok (m.set_union n channel _).symm

theorem mem_names_of_mem_written {a : Action} {x : String} (hx : x ∈ a.written) : x ∈ a.names := by
  cases a with
  | skip => cases hx
  | assign name value | send channel value =>
    exact List.mem_cons.mpr (.inl (List.mem_singleton.mp hx))
  | atomic as =>
    obtain ⟨a, ha, rfl⟩ := List.mem_map.mp hx
    exact List.mem_flatMap.mpr ⟨a, ha, List.mem_cons_self⟩
  | receive channel target => exact hx

theorem within_run {a : Action} {k : Memory} (hm : m.Within N) (ha : ∀ x ∈ a.names, x ∈ N)
    (hrun : a.run m = .ok k) : k.Within N := by
  intro y hy
  by_cases hwritten : y ∈ a.written
  · exact ha y (mem_names_of_mem_written hwritten)
  · rw [get?_of_run hwritten hrun] at hy
    exact hm y hy

end Action

namespace Stmt

mutual
/-- The variables and channels of a statement. -/
def names : Stmt → List String
  | basic action => action.names
  | seq first second => first.names ++ second.names
  | choice options => optionNames options
  | loop options => optionNames options

def optionNames : List (Expr × Stmt) → List String
  | [] => []
  | (guard, body) :: rest => guard.names ++ body.names ++ optionNames rest
end

theorem mem_optionNames {os : List (Expr × Stmt)} {x : String} :
    x ∈ optionNames os ↔ ∃ o ∈ os, x ∈ o.1.names ∨ x ∈ o.2.names := by
  induction os with
  | nil => simp [optionNames]
  | cons o os ih => simp [optionNames, ih, or_assoc]

theorem names_thenDo {r : Option Stmt} {t : Stmt} {x : String} (hx : x ∈ (thenDo r t).names) :
    (∃ s ∈ r, x ∈ s.names) ∨ x ∈ t.names := by
  cases r with
  | none => exact .inr hx
  | some s => exact (List.mem_append.mp hx).imp_left fun hs => ⟨s, rfl, hs⟩

/-- A step asks, does and leaves nothing that is not named in the statement. -/
structure NamesOf (s : Stmt) (c : Condition) (a : Option Action) (r : Option Stmt) : Prop where
  condition : ∀ x ∈ c.names, x ∈ s.names
  action : ∀ b ∈ a, ∀ x ∈ b.names, x ∈ s.names
  rest : ∀ t ∈ r, ∀ x ∈ t.names, x ∈ s.names

theorem Step.namesOf {s : Stmt} {c : Condition} {a : Option Action} {r : Option Stmt}
    (h : Step s c a r) : s.NamesOf c a r := by
  induction h with
  | basic a =>
    refine ⟨fun x hx => absurd hx List.not_mem_nil, ?_, fun t ht => (by cases ht)⟩
    rintro b ⟨⟩ x hx
    exact hx
  | seq _ ih =>
    refine ⟨fun x hx => List.mem_append_left _ (ih.condition x hx),
      fun b hb x hx => List.mem_append_left _ (ih.action b hb x hx), ?_⟩
    rintro t ⟨⟩ x hx
    obtain ⟨t, ht, hx⟩ | hx := names_thenDo hx
    · exact List.mem_append_left _ (ih.rest t ht x hx)
    · exact List.mem_append_right _ hx
  | choice ho _ ih =>
    have hbody : ∀ x ∈ _, x ∈ _ := fun x hx => mem_optionNames.mpr ⟨_, ho, .inr hx⟩
    refine ⟨fun x hx => ?_, fun b hb x hx => hbody x (ih.action b hb x hx),
      fun t ht x hx => hbody x (ih.rest t ht x hx)⟩
    obtain hx | hx := List.mem_append.mp hx
    · exact mem_optionNames.mpr ⟨_, ho, .inl hx⟩
    · exact hbody x (ih.condition x hx)
  | loop ho _ ih =>
    have hbody : ∀ x ∈ _, x ∈ _ := fun x hx => mem_optionNames.mpr ⟨_, ho, .inr hx⟩
    refine ⟨fun x hx => ?_, fun b hb x hx => hbody x (ih.action b hb x hx), ?_⟩
    · obtain hx | hx := List.mem_append.mp hx
      · exact mem_optionNames.mpr ⟨_, ho, .inl hx⟩
      · exact hbody x (ih.condition x hx)
    · rintro t ⟨⟩ x hx
      obtain ⟨t, ht, hx⟩ | hx := names_thenDo hx
      · exact hbody x (ih.rest t ht x hx)
      · exact hx
  | exit os =>
    refine ⟨fun x hx => ?_, fun b hb => (by cases hb), fun t ht => (by cases ht)⟩
    obtain ⟨g, hg, hx⟩ := List.mem_flatMap.mp hx
    obtain ⟨o, ho, rfl⟩ := List.mem_map.mp hg
    exact mem_optionNames.mpr ⟨o, ho, .inl hx⟩

theorem Reaches.names {s r : Stmt} (h : Reaches s r) : ∀ x ∈ r.names, x ∈ s.names := by
  induction h with
  | refl => exact fun x hx => hx
  | tail _ hleaves ih =>
    obtain ⟨c, a, hstep⟩ := hleaves
    exact fun x hx => ih x (hstep.namesOf.rest _ rfl x hx)

end Stmt

end OmegaCheck
