import OmegaCheck.Proofs.Exploration

/-!
# Collecting steps

The steps of a state are collected from its edges, and asking an edge may fail. The collection is
there when no question fails that is asked at all, and it then holds what the single edges give.
-/

namespace OmegaCheck

variable {ε δ α β : Type}

theorem bind_eq_ok_iff {x : Except ε α} {f : α → Except ε β} {b : β} :
    x >>= f = .ok b ↔ ∃ a, x = .ok a ∧ f a = .ok b := by
  cases x with
  | error e =>
    constructor
    · intro h
      cases h
    · rintro ⟨a, ⟨⟩, _⟩
  | ok a =>
    constructor
    · exact fun h => ⟨a, rfl, h⟩
    · rintro ⟨_, ⟨⟩, h⟩
      exact h

theorem mapError_eq_ok_iff {x : Except ε α} {f : ε → δ} {a : α} :
    x.mapError f = .ok a ↔ x = .ok a := by
  cases x with
  | error e => exact ⟨fun h => (by cases h), fun h => (by cases h)⟩
  | ok b => exact ⟨fun h => (by cases h; rfl), fun h => (by cases h; rfl)⟩

/-- The list is there exactly when `defined` says so, and then has the members that `p` admits. -/
structure Collects (r : Except ε (List α)) (defined : Prop) (p : α → Prop) : Prop where
  ok_iff : (∃ l, r = .ok l) ↔ defined
  mem_iff : ∀ l, r = .ok l → ∀ a, a ∈ l ↔ p a

namespace Collects

variable {r s : Except ε (List α)} {d d' : Prop} {p p' : α → Prop}

theorem of_ok (l : List α) : Collects (.ok l : Except ε (List α)) True (· ∈ l) where
  ok_iff := ⟨fun _ => trivial, fun _ => ⟨l, rfl⟩⟩
  mem_iff := by
    rintro _ ⟨⟩ a
    rfl

theorem self (r : Except ε (List α)) :
    Collects r (∃ l, r = .ok l) fun a => ∃ l, r = .ok l ∧ a ∈ l where
  ok_iff := Iff.rfl
  mem_iff l hl a := by
    refine ⟨fun ha => ⟨l, hl, ha⟩, ?_⟩
    rintro ⟨l', hl', ha⟩
    rwa [Except.ok.inj (hl.symm.trans hl')]

theorem of_error (e : ε) (hd : ¬ d) : Collects (.error e) d p where
  ok_iff := ⟨by rintro ⟨l, ⟨⟩⟩, fun h => absurd h hd⟩
  mem_iff := by rintro l ⟨⟩

theorem congr (h : Collects r d p) (hd : d ↔ d') (hp : d → ∀ a, p a ↔ p' a) : Collects r d' p' where
  ok_iff := h.ok_iff.trans hd
  mem_iff l hl a := (h.mem_iff l hl a).trans (hp (h.ok_iff.mp ⟨l, hl⟩) a)

theorem map (h : Collects r d p) (f : α → β) :
    Collects (do let l ← r; return l.map f) d fun b => ∃ a, p a ∧ f a = b where
  ok_iff := by
    rw [← h.ok_iff]
    constructor
    · rintro ⟨_, hr⟩
      obtain ⟨l, hl, _⟩ := bind_eq_ok_iff.mp hr
      exact ⟨l, hl⟩
    · rintro ⟨l, hl⟩
      exact ⟨_, bind_eq_ok_iff.mpr ⟨l, hl, rfl⟩⟩
  mem_iff := by
    intro _ hr b
    obtain ⟨l, hl, ⟨⟩⟩ := bind_eq_ok_iff.mp hr
    rw [List.mem_map]
    exact exists_congr fun a => and_congr_left fun _ => h.mem_iff l hl a

theorem append (h : Collects r d p) (k : Collects s d' p') :
    Collects (do let l ← r; let l' ← s; return l ++ l') (d ∧ d') fun a => p a ∨ p' a where
  ok_iff := by
    rw [← h.ok_iff, ← k.ok_iff]
    constructor
    · rintro ⟨_, hr⟩
      obtain ⟨l, hl, hr⟩ := bind_eq_ok_iff.mp hr
      obtain ⟨l', hl', _⟩ := bind_eq_ok_iff.mp hr
      exact ⟨⟨l, hl⟩, l', hl'⟩
    · rintro ⟨⟨l, hl⟩, l', hl'⟩
      exact ⟨l ++ l', bind_eq_ok_iff.mpr ⟨l, hl, bind_eq_ok_iff.mpr ⟨l', hl', rfl⟩⟩⟩
  mem_iff := by
    intro _ hr a
    obtain ⟨l, hl, hr⟩ := bind_eq_ok_iff.mp hr
    obtain ⟨l', hl', ⟨⟩⟩ := bind_eq_ok_iff.mp hr
    rw [List.mem_append, h.mem_iff l hl, k.mem_iff l' hl']

/-- What is collected from each item of a list. -/
theorem flatten {f : β → Except ε (List α)} {d : β → Prop} {p : β → α → Prop} {l : List β}
    (h : ∀ b ∈ l, Collects (f b) (d b) (p b)) :
    Collects (do let found ← l.mapM f; return found.flatten) (∀ b ∈ l, d b)
      fun a => ∃ b ∈ l, p b a := by
  induction l with
  | nil => exact (of_ok []).congr (by simp) (by simp)
  | cons b l ih =>
    rw [List.forall_mem_cons] at h
    have hcons : (do let found ← (b :: l).mapM f; return found.flatten) =
        (do let first ← f b
            let rest ← (do let found ← l.mapM f; return found.flatten)
            return first ++ rest) := by
      simp only [List.mapM_cons, bind_assoc, pure_bind, List.flatten_cons]
    rw [hcons]
    exact (h.1.append (ih h.2)).congr (by simp) (by simp)

theorem single (x : Except ε β) (f : β → α) :
    Collects (do let b ← x; return [f b]) (∃ b, x = .ok b) fun a => ∃ b, x = .ok b ∧ f b = a := by
  cases x with
  | error e => exact of_error e (by simp)
  | ok b => exact (of_ok [f b]).congr (by simp) (by simp [eq_comm])

theorem onlyIf (h : Collects r d p) (b : Bool) :
    Collects (if b then r else return []) (b = true → d) fun a => b = true ∧ p a := by
  cases b with
  | false => exact (of_ok []).congr (by simp) (by simp)
  | true => exact h.congr (by simp) (by simp)

theorem guarded (h : Collects r d p) (g : Except ε Bool) :
    Collects (do if ← g then r else return []) (∃ b, g = .ok b ∧ (b = true → d))
      fun a => g = .ok true ∧ p a := by
  cases g with
  | error e => exact of_error e (by simp)
  | ok b => exact (h.onlyIf b).congr (by simp) (by simp)

theorem mapM (f : β → Except ε α) (l : List β) :
    Collects (l.mapM f) (∀ b ∈ l, ∃ a, f b = .ok a) fun a => ∃ b ∈ l, f b = .ok a := by
  induction l with
  | nil => exact (of_ok []).congr (by simp) (by simp)
  | cons b l ih =>
    have hcons : (b :: l).mapM f =
        (do let first ← (do let a ← f b; return [id a])
            let rest ← l.mapM f
            return first ++ rest) := by
      simp only [List.mapM_cons, bind_assoc, pure_bind, List.singleton_append, id]
    rw [hcons]
    exact ((single (f b) id).append ih).congr (by simp) (by simp)

theorem ofList_eq_ok_iff [Element α] (h : Collects r d p) {s : FinSet α} :
    (do let l ← r; return FinSet.ofList l) = .ok s ↔ d ∧ ∀ a, a ∈ s ↔ p a := by
  rw [bind_eq_ok_iff]
  constructor
  · rintro ⟨l, hl, ⟨⟩⟩
    exact ⟨h.ok_iff.mp ⟨l, hl⟩, fun a => FinSet.mem_ofList.trans (h.mem_iff l hl a)⟩
  · rintro ⟨hd, hs⟩
    obtain ⟨l, hl⟩ := h.ok_iff.mpr hd
    have hset : FinSet.ofList l = s := FinSet.ext fun a => by
      rw [FinSet.mem_ofList, h.mem_iff l hl, hs]
    exact ⟨l, hl, congrArg Except.ok hset⟩

/-- Two collections are alike when both are there or not, and their members are. -/
theorem renamed {S T A : Type} {r : Except ε (List (A × S))} {r' : Except δ (List (A × T))}
    {p : A × S → Prop} {p' : A × T → Prop} {f : S → T} (h : Collects r d p)
    (h' : Collects r' d' p') (hd : d ↔ d')
    (hp : d → ∀ a y, p' (a, y) ↔ ∃ x, p (a, x) ∧ f x = y) : StateSpace.Renamed f r r' := by
  cases hr : r with
  | error e =>
    have hnot : ¬ d' := fun hd' => by
      obtain ⟨l, hl⟩ := h.ok_iff.mpr (hd.mpr hd')
      rw [hl] at hr
      cases hr
    cases hr' : r' with
    | error e' => exact .error e e'
    | ok l' => exact absurd (h'.ok_iff.mp ⟨l', hr'⟩) hnot
  | ok l =>
    have hd' := h.ok_iff.mp ⟨l, hr⟩
    obtain ⟨l', hr'⟩ := h'.ok_iff.mpr (hd.mp hd')
    rw [hr']
    refine .ok fun a y => ?_
    rw [h'.mem_iff l' hr', hp hd']
    exact exists_congr fun x => and_congr_left fun _ => (h.mem_iff l hr _).symm

end Collects

namespace StateSpace

variable {S A : Type} [Element S] [Element A] {moves : S → Except ε (List (A × S))}
variable {initial : List S} {space : StateSpace S A} {d : S → Prop} {R : S → A → S → Prop}

/-- Where the moves are told by a relation, so is the reachable part. -/
theorem IsReachable.mem_transitions_iff (h : IsReachable moves initial space)
    (hmoves : ∀ x, Collects (moves x) (d x) fun y => R x y.1 y.2) {x y : S} {a : A} :
    ⟨x, a, y⟩ ∈ space.transitions ↔ x ∈ space.states ∧ R x a y := by
  rw [h.mem_transitions]
  constructor
  · rintro ⟨hx, steps, hsteps, hy⟩
    exact ⟨hx, ((hmoves x).mem_iff steps hsteps (a, y)).mp hy⟩
  · rintro ⟨hx, hR⟩
    obtain ⟨steps, hsteps⟩ := h.defined x hx
    exact ⟨hx, steps, hsteps, ((hmoves x).mem_iff steps hsteps (a, y)).mpr hR⟩

theorem IsReachable.mem_states_iff (h : IsReachable moves initial space)
    (hmoves : ∀ x, Collects (moves x) (d x) fun y => R x y.1 y.2) {x : S} :
    x ∈ space.states ↔ ∃ s ∈ initial, ∃ n, Walk (fun y z => ∃ a, R y a z) s n x := by
  constructor
  · intro hx
    obtain ⟨s, hs, n, hwalk⟩ := (h.mem_states x).mp hx
    refine ⟨s, hs, n, hwalk.mono ?_⟩
    rintro y z ⟨steps, a, hsteps, hz⟩
    exact ⟨a, ((hmoves y).mem_iff steps hsteps (a, z)).mp hz⟩
  · rintro ⟨s, hs, n, hwalk⟩
    refine hwalk.invariant ((h.mem_states s).mpr ⟨s, hs, 0, .nil s⟩) ?_
    rintro y z hy ⟨a, hR⟩
    obtain ⟨steps, hsteps⟩ := h.defined y hy
    have hz := ((hmoves y).mem_iff steps hsteps (a, z)).mpr hR
    exact (h.mem_states z).mpr (((h.mem_states y).mp hy).step ⟨steps, a, hsteps, hz⟩)

end StateSpace

/-- What is asked of an item: whether it comes into question, whether its guard holds, and what it
gives then. -/
structure Trial (ε α β : Type) where
  ready : α → Bool
  guard : α → Except ε Bool
  effect : α → Except ε β

namespace Trial

variable (t : Trial ε α β) (a : α)

def run : Except ε (List (α × β)) := do
  if t.ready a then
    if ← t.guard a then
      let b ← t.effect a
      return [(a, b)]
    else return []
  else return []

/-- No question fails that is asked. -/
def Defined : Prop :=
  t.ready a = true → ∃ b, t.guard a = .ok b ∧ (b = true → ∃ c, t.effect a = .ok c)

def Gives (b : β) : Prop := t.ready a = true ∧ t.guard a = .ok true ∧ t.effect a = .ok b

section Congr

variable {t a} {t' : Trial ε α β} (hready : t.ready a = t'.ready a)
variable (hguard : ∀ b, t.guard a = .ok b ↔ t'.guard a = .ok b)
include hready hguard

theorem defined_congr (heffect : (∃ b, t.effect a = .ok b) ↔ ∃ b, t'.effect a = .ok b) :
    t.Defined a ↔ t'.Defined a := by
  rw [Defined, Defined, hready]
  simp only [hguard, heffect]

theorem gives_congr (heffect : ∀ b, t.effect a = .ok b ↔ t'.effect a = .ok b) {b : β} :
    t.Gives a b ↔ t'.Gives a b := by
  rw [Gives, Gives, hready, hguard, heffect]

end Congr

theorem collects_run : Collects (t.run a) (t.Defined a) fun x => x.1 = a ∧ t.Gives a x.2 := by
  have heffect := (Collects.single (t.effect a) fun b => (a, b)).guarded (t.guard a)
  refine (heffect.onlyIf (t.ready a)).congr Iff.rfl fun _ x => ?_
  constructor
  · rintro ⟨hready, hguard, b, hb, rfl⟩
    exact ⟨rfl, hready, hguard, hb⟩
  · rintro ⟨rfl, hready, hguard, hb⟩
    exact ⟨hready, hguard, x.2, hb, rfl⟩

/-- The trials of a list, one after the other. -/
def gather : List α → Except ε (List (α × β))
  | [] => .ok []
  | a :: rest => do
    if t.ready a then
      if ← t.guard a then
        let b ← t.effect a
        return (a, b) :: (← gather rest)
      else gather rest
    else gather rest

theorem gather_cons (rest : List α) :
    t.gather (a :: rest) =
      (do let first ← t.run a; let more ← t.gather rest; return first ++ more) := by
  rw [gather, run]
  cases t.ready a with
  | false => simp
  | true =>
    cases t.guard a with
    | error e => rfl
    | ok b =>
      cases b with
      | false => cases t.gather rest <;> rfl
      | true => cases t.effect a <;> rfl

theorem collects_gather (l : List α) :
    Collects (t.gather l) (∀ a ∈ l, t.Defined a) fun x => x.1 ∈ l ∧ t.Gives x.1 x.2 := by
  induction l with
  | nil => exact (Collects.of_ok []).congr (by simp) (by simp)
  | cons a l ih =>
    rw [gather_cons]
    refine ((t.collects_run a).append ih).congr (by simp) fun _ x => ?_
    rw [List.mem_cons, or_and_right]
    exact or_congr_left (and_congr_right fun h => by rw [h])

end Trial

end OmegaCheck
