import OmegaCheck.Proofs.TransitionStore
import OmegaCheck.TransitionSystem.StoreQuery
import Mathlib.Data.List.Nodup

/-!
# The tables of a store answer for its transitions

Every question about a store is answered from one of its tables, and no table is compared when two
stores are. After any edits the answers are nevertheless those that the set of transitions gives, so
that stores which count as the same answer alike, whatever edits they have been through and whatever
empty entries these have left in the tables.
-/

namespace OmegaCheck

theorem FinSet.size_le_one_iff {α : Type} [Element α] {s : FinSet α} :
    s.size ≤ 1 ↔ ∀ a b, a ∈ s → b ∈ s → a = b := by
  rw [← length_toList]
  simp only [← mem_toList]
  have hnodup := s.toList_nodup
  generalize s.toList = l at hnodup ⊢
  constructor
  · intro hlength a b ha hb
    match l, hlength with
    | [c], _ => rw [List.mem_singleton.mp ha, List.mem_singleton.mp hb]
  · intro h
    match l, hnodup with
    | [], _ => simp
    | [_], _ => simp
    | a :: b :: _, hnodup =>
      have hne : a ≠ b := by
        intro heq
        subst heq
        simp at hnodup
      exact absurd (h a b (by simp) (by simp)) hne

/-- There is an answer exactly when what is asked about is known, and it is then right. -/
structure Answers {ε α : Type} (r : Except ε α) (known : Prop) (right : α → Prop) : Prop where
  ok_iff : (∃ x, r = .ok x) ↔ known
  right : ∀ x, r = .ok x → right x

namespace Answers

variable {ε α β : Type} {r : Except ε α} {known known' : Prop} {right right' : α → Prop}

theorem pure {x : α} (h : right x) : Answers (.ok x : Except ε α) True right where
  ok_iff := ⟨fun _ => trivial, fun _ => ⟨x, rfl⟩⟩
  right := by
    rintro _ ⟨⟩
    exact h

theorem error (e : ε) (h : ¬ known) : Answers (.error e) known right where
  ok_iff := ⟨by rintro ⟨x, ⟨⟩⟩, fun hknown => absurd hknown h⟩
  right := by rintro x ⟨⟩

theorem congr (h : Answers r known right) (hknown : known ↔ known')
    (hright : ∀ x, right x → right' x) : Answers r known' right' :=
  ⟨h.ok_iff.trans hknown, fun x hx => hright x (h.right x hx)⟩

theorem checked (h : Answers r known right) {c : Prop} [Decidable c] {e : ε} :
    Answers (do (if c then .ok () else .error e : Except ε Unit); r) (c ∧ known) right := by
  by_cases hc : c
  · rw [if_pos hc]
    exact h.congr (by simp [hc]) fun _ => id
  · rw [if_neg hc]
    exact error e fun hboth => hc hboth.1

theorem bind {f : α → Except ε β} {known' : α → Prop} {right' : β → Prop}
    (h : Answers r known right) (hf : ∀ x, r = .ok x → Answers (f x) (known' x) right') :
    Answers (do let x ← r; f x) (∃ x, r = .ok x ∧ known' x) right' := by
  cases r with
  | error e => exact error e (by simp)
  | ok x => exact (hf x rfl).congr (by simp) fun _ => id

end Answers

namespace TransitionStore

open TransitionSystem (Change Error)

variable {S A P : Type} [Element S] [Element A] [Element P]
variable {st st' : TransitionStore S A P} {table table' : FinMap S (FinSet (A × S))}

section Across

variable {R : S → A → S → Prop} (htable : ∀ s a t, (a, t) ∈ table.members s ↔ R s a t)
include htable

theorem answers_across (s : S) :
    Answers (st.across table s) (s ∈ st.states)
      fun found => ∀ t, t ∈ found ↔ ∃ a, R s a t := by
  refine ((Answers.pure fun t => ?_).checked).congr (by rw [and_true]) fun _ => id
  simp [htable]

theorem answers_acrossBy (s : S) (a : A) :
    Answers (st.acrossBy table s a) (s ∈ st.states ∧ a ∈ st.actions)
      fun found => ∀ t, t ∈ found ↔ R s a t := by
  refine ((Answers.pure fun t => ?_).checked.checked).congr (by rw [and_true]) fun _ => id
  simp [htable]

omit [Element A] [Element P] htable in
theorem answers_unionOver {f : S → Except (Error S A P) (FinSet S)} {known : S → Prop}
    {p : S → S → Prop} (h : ∀ s, Answers (f s) (known s) fun found => ∀ t, t ∈ found ↔ p s t)
    (l : List S) :
    Answers (unionOver f l) (∀ s ∈ l, known s)
      fun found => ∀ t, t ∈ found ↔ ∃ s ∈ l, p s t := by
  induction l with
  | nil => exact (Answers.pure (by simp)).congr (by simp) fun _ => id
  | cons s l ih =>
    refine ((h s).bind fun first hfirst => ih.bind fun others hothers =>
      Answers.pure fun t => ?_).congr ?_ fun _ => id
    · rw [FinSet.mem_union, (h s).right first hfirst, ih.right others hothers]
      simp
    · rw [List.forall_mem_cons, ← (h s).ok_iff, ← ih.ok_iff]
      simp

theorem answers_acrossAllBy (l : List S) (a : A) :
    Answers (st.acrossAllBy table l a) (a ∈ st.actions ∧ ∀ s ∈ l, s ∈ st.states)
      fun found => ∀ t, t ∈ found ↔ ∃ s ∈ l, R s a t := by
  refine (answers_unionOver (fun s => answers_acrossBy htable s a) l).checked.congr ?_ fun _ => id
  exact and_congr_right fun ha => forall₂_congr fun s _ => and_iff_left ha

end Across

theorem answers_isTerminal (s : S) :
    Answers (st.isTerminal s) (s ∈ st.states) fun b => b = true ↔ ∀ x, x ∉ st.outgoing s := by
  refine ((Answers.pure ?_).checked).congr (by rw [and_true]) fun _ => id
  exact FinSet.isEmpty_iff

theorem all_members_iff {p : FinSet (A × S) → Prop} (hempty : p ∅) :
    (∀ s steps, table.get? s = some steps → p steps) ↔ ∀ s, p (table.members s) := by
  constructor
  · intro h s
    rw [FinMap.members]
    cases hs : table.get? s with
    | none => exact hempty
    | some steps => exact h s steps hs
  · intro h s steps hs
    have hmembers := h s
    rwa [FinMap.members, hs] at hmembers

theorem nodup_map_fst_iff {steps : FinSet (A × S)} :
    (steps.toList.map Prod.fst).Nodup ↔
      ∀ a t u, (a, t) ∈ steps → (a, u) ∈ steps → t = u := by
  rw [List.nodup_map_iff_inj_on steps.toList_nodup]
  simp only [FinSet.mem_toList, Prod.forall, Prod.mk.injEq]
  constructor
  · intro h a t u ht hu
    exact (h a t ht a u hu rfl).2
  · intro h a t ht b u hu hab
    subst hab
    exact ⟨rfl, h a t u ht hu⟩

theorem isActionDeterministic_iff :
    st.isActionDeterministic = true ↔ st.initial.size ≤ 1 ∧
      ∀ s a t u, (a, t) ∈ st.outgoing s → (a, u) ∈ st.outgoing s → t = u := by
  rw [isActionDeterministic, Bool.and_eq_true, decide_eq_true_eq]
  refine and_congr_right fun _ => ?_
  simp only [List.all_eq_true, decide_eq_true_eq, Prod.forall, FinMap.mem_toList]
  rw [all_members_iff List.nodup_nil]
  exact forall_congr' fun s => nodup_map_fst_iff

theorem mapM_eq_some {α β : Type} {f : α → Option β} {g : α → β} {l : List α}
    (h : ∀ a ∈ l, f a = some (g a)) : l.mapM f = some (l.map g) := by
  induction l with
  | nil => rfl
  | cons a l ih =>
    rw [List.forall_mem_cons] at h
    rw [List.mapM_cons, h.1, ih h.2]
    rfl

theorem allM_eq_some {α : Type} {f : α → Option Bool} {g : α → Bool} {l : List α}
    (h : ∀ a ∈ l, f a = some (g a)) : l.allM f = some (l.all g) := by
  induction l with
  | nil => rfl
  | cons a l ih =>
    rw [List.forall_mem_cons] at h
    rw [List.allM, h.1, List.all_cons]
    cases g a with
    | false => rfl
    | true => exact ih h.2

theorem InStep.get?_labeling (h : st.InStep) {s : S} (hs : s ∈ st.states) :
    st.labeling.get? s = some (st.labeling.members s) := by
  obtain ⟨label, hlabel⟩ := (h.labelled s).mpr hs
  rw [FinMap.members, hlabel, Option.getD_some]

theorem InStep.label_eq (h : st.InStep) {s : S} (hs : s ∈ st.states) :
    st.label s = .ok (st.labeling.members s) := by
  rw [label, h.get?_labeling hs]

/-- No two different targets of these steps have equal labels. -/
def DistinctLabels (st : TransitionStore S A P) (steps : FinSet (A × S)) : Prop :=
  ∀ t u, (∃ a, (a, t) ∈ steps) → (∃ a, (a, u) ∈ steps) → st.label t = st.label u → t = u

theorem InStep.nodup_labels_iff (h : st.InStep) {steps : FinSet (A × S)}
    (hsteps : ∀ a t, (a, t) ∈ steps → t ∈ st.states) :
    ((steps.image Prod.snd).toList.map st.labeling.members).Nodup ↔ st.DistinctLabels steps := by
  rw [List.nodup_map_iff_inj_on (FinSet.toList_nodup _)]
  simp only [FinSet.mem_toList, FinSet.mem_image, Prod.exists, exists_eq_right]
  constructor
  · rintro hdistinct t u ⟨a, ht⟩ ⟨b, hu⟩ hlabel
    rw [h.label_eq (hsteps a t ht), h.label_eq (hsteps b u hu)] at hlabel
    exact hdistinct t ⟨a, ht⟩ u ⟨b, hu⟩ (Except.ok.inj hlabel)
  · rintro hdistinct t ⟨a, ht⟩ u ⟨b, hu⟩ hlabel
    apply hdistinct t u ⟨a, ht⟩ ⟨b, hu⟩
    rw [h.label_eq (hsteps a t ht), h.label_eq (hsteps b u hu), hlabel]

theorem Consistent.mem_states_of_mem_outgoing (h : st.Consistent) {s t : S} {a : A}
    (ht : (a, t) ∈ st.outgoing s) : t ∈ st.states :=
  h.target _ ((h.successors s a t).mp ht)

/-- Every label that the test looks up is there. -/
theorem Consistent.exists_isLabelDeterministic? (h : st.Consistent) :
    ∃ b, st.isLabelDeterministic? = some b ∧
      (b = true ↔ st.initial.size ≤ 1 ∧ ∀ s, st.DistinctLabels (st.outgoing s)) := by
  rw [isLabelDeterministic?]
  by_cases hinitial : 1 < st.initial.size
  · rw [if_pos hinitial]
    refine ⟨false, rfl, ?_⟩
    constructor
    · intro hfalse
      cases hfalse
    · intro hsize
      omega
  have htargets : ∀ s steps, st.successors.get? s = some steps →
      ∀ a t, (a, t) ∈ steps → t ∈ st.states := by
    intro s steps hs a t ht
    exact h.mem_states_of_mem_outgoing (FinMap.mem_members.mpr ⟨steps, hs, ht⟩)
  have hall : ∀ x ∈ st.successors.toList, (do
      let labels ← (x.2.image Prod.snd).toList.mapM st.labeling.get?
      return decide labels.Nodup) =
        some (decide ((x.2.image Prod.snd).toList.map st.labeling.members).Nodup) := by
    rintro ⟨s, steps⟩ hx
    have hlabels : ∀ t ∈ (steps.image Prod.snd).toList,
        st.labeling.get? t = some (st.labeling.members t) := by
      intro t ht
      obtain ⟨⟨a, _⟩, hmem, rfl⟩ := FinSet.mem_image.mp (FinSet.mem_toList.mp ht)
      exact h.get?_labeling (htargets s steps (FinMap.mem_toList.mp hx) a _ hmem)
    rw [mapM_eq_some hlabels]
    rfl
  rw [if_neg hinitial, allM_eq_some hall]
  refine ⟨_, rfl, ?_⟩
  simp only [List.all_eq_true, decide_eq_true_eq, Prod.forall, FinMap.mem_toList]
  have hempty : st.DistinctLabels (∅ : FinSet (A × S)) := by
    rintro t u ⟨a, ht⟩
    exact absurd ht (FinSet.not_mem_empty _)
  have hsize : st.initial.size ≤ 1 := Nat.not_lt.mp hinitial
  rw [and_iff_right hsize]
  refine Iff.trans ?_ (all_members_iff hempty)
  exact forall₂_congr fun s steps => forall_congr' fun hs => h.nodup_labels_iff (htargets s steps hs)

/-- Each question is answered as the set of transitions says. -/
structure TellsTransitions (st : TransitionStore S A P) : Prop where
  post : ∀ s, Answers (st.post s) (s ∈ st.states)
    fun found => ∀ t, t ∈ found ↔ ∃ a, ⟨s, a, t⟩ ∈ st.transitions
  postBy : ∀ s a, Answers (st.postBy s a) (s ∈ st.states ∧ a ∈ st.actions)
    fun found => ∀ t, t ∈ found ↔ ⟨s, a, t⟩ ∈ st.transitions
  postAll : ∀ l, Answers (st.postAll l) (∀ s ∈ l, s ∈ st.states)
    fun found => ∀ t, t ∈ found ↔ ∃ s ∈ l, ∃ a, ⟨s, a, t⟩ ∈ st.transitions
  postAllBy : ∀ l a, Answers (st.postAllBy l a) (a ∈ st.actions ∧ ∀ s ∈ l, s ∈ st.states)
    fun found => ∀ t, t ∈ found ↔ ∃ s ∈ l, ⟨s, a, t⟩ ∈ st.transitions
  pre : ∀ t, Answers (st.pre t) (t ∈ st.states)
    fun found => ∀ s, s ∈ found ↔ ∃ a, ⟨s, a, t⟩ ∈ st.transitions
  preBy : ∀ t a, Answers (st.preBy t a) (t ∈ st.states ∧ a ∈ st.actions)
    fun found => ∀ s, s ∈ found ↔ ⟨s, a, t⟩ ∈ st.transitions
  preAll : ∀ l, Answers (st.preAll l) (∀ t ∈ l, t ∈ st.states)
    fun found => ∀ s, s ∈ found ↔ ∃ t ∈ l, ∃ a, ⟨s, a, t⟩ ∈ st.transitions
  preAllBy : ∀ l a, Answers (st.preAllBy l a) (a ∈ st.actions ∧ ∀ t ∈ l, t ∈ st.states)
    fun found => ∀ s, s ∈ found ↔ ∃ t ∈ l, ⟨s, a, t⟩ ∈ st.transitions
  outgoing : ∀ s a t, (a, t) ∈ st.outgoing s ↔ ⟨s, a, t⟩ ∈ st.transitions
  outgoing_unknown : ∀ s, s ∉ st.states → st.outgoing s = ∅
  isTerminal : ∀ s, Answers (st.isTerminal s) (s ∈ st.states)
    fun b => b = true ↔ ∀ t, t ∈ st.transitions → t.source ≠ s
  isActionDeterministic : st.isActionDeterministic = true ↔ st.initial.size ≤ 1 ∧
    ∀ s a, s ∈ st.states → a ∈ st.actions → ∃ found, st.postBy s a = .ok found ∧ found.size ≤ 1
  isLabelDeterministic? : ∃ b, st.isLabelDeterministic? = some b ∧
    (b = true ↔ st.initial.size ≤ 1 ∧ ∀ s a b t u, ⟨s, a, t⟩ ∈ st.transitions →
      ⟨s, b, u⟩ ∈ st.transitions → t ≠ u → st.label t ≠ st.label u)

namespace Consistent

theorem outgoing_eq_empty (h : st.Consistent) {s : S} (hs : s ∉ st.states) : st.outgoing s = ∅ := by
  refine FinSet.ext ?_
  rintro ⟨a, t⟩
  have hnone : (a, t) ∉ st.outgoing s := fun ht => hs (h.source _ ((h.successors s a t).mp ht))
  exact iff_of_false hnone (FinSet.not_mem_empty _)

theorem isTerminal_iff (h : st.Consistent) {s : S} :
    (∀ x, x ∉ st.outgoing s) ↔ ∀ t, t ∈ st.transitions → t.source ≠ s := by
  constructor
  · rintro hnone ⟨_, a, t⟩ ht rfl
    exact hnone (a, t) ((h.successors _ a t).mpr ht)
  · rintro hnone ⟨a, t⟩ ht
    exact hnone _ ((h.successors s a t).mp ht) rfl

theorem isActionDeterministic_iff (h : st.Consistent) :
    st.isActionDeterministic = true ↔ st.initial.size ≤ 1 ∧
      ∀ s a, s ∈ st.states → a ∈ st.actions →
        ∃ found, st.postBy s a = .ok found ∧ found.size ≤ 1 := by
  rw [TransitionStore.isActionDeterministic_iff]
  refine and_congr_right fun _ => ?_
  have hanswers : ∀ s a, Answers (st.postBy s a) (s ∈ st.states ∧ a ∈ st.actions) fun found =>
      ∀ t, t ∈ found ↔ ⟨s, a, t⟩ ∈ st.transitions := fun s a => answers_acrossBy h.successors s a
  constructor
  · intro hone s a hs ha
    obtain ⟨found, hfound⟩ := (hanswers s a).ok_iff.mpr ⟨hs, ha⟩
    have hmem := (hanswers s a).right found hfound
    refine ⟨found, hfound, FinSet.size_le_one_iff.mpr fun t u ht hu => ?_⟩
    apply hone s a t u
    · exact (h.successors s a t).mpr ((hmem t).mp ht)
    · exact (h.successors s a u).mpr ((hmem u).mp hu)
  · intro hone s a t u ht hu
    have hstep := (h.successors s a t).mp ht
    obtain ⟨found, hfound, hsize⟩ := hone s a (h.source _ hstep) (h.action _ hstep)
    have hmem := (hanswers s a).right found hfound
    apply FinSet.size_le_one_iff.mp hsize
    · exact (hmem t).mpr hstep
    · exact (hmem u).mpr ((h.successors s a u).mp hu)

theorem distinctLabels_iff (h : st.Consistent) :
    (∀ s, st.DistinctLabels (st.outgoing s)) ↔ ∀ s a b t u, ⟨s, a, t⟩ ∈ st.transitions →
      ⟨s, b, u⟩ ∈ st.transitions → t ≠ u → st.label t ≠ st.label u := by
  constructor
  · intro hdistinct s a b t u ht hu hne hlabel
    exact hne (hdistinct s t u ⟨a, (h.successors s a t).mpr ht⟩ ⟨b, (h.successors s b u).mpr hu⟩
      hlabel)
  · rintro hdistinct s t u ⟨a, ht⟩ ⟨b, hu⟩ hlabel
    by_contra hne
    exact hdistinct s a b t u ((h.successors s a t).mp ht) ((h.successors s b u).mp hu) hne hlabel

theorem tellsTransitions (h : st.Consistent) : st.TellsTransitions where
  post := answers_across h.successors
  postBy := answers_acrossBy h.successors
  postAll := answers_unionOver (answers_across h.successors)
  postAllBy := answers_acrossAllBy h.successors
  pre := answers_across fun t a s => h.predecessors s a t
  preBy := answers_acrossBy fun t a s => h.predecessors s a t
  preAll := answers_unionOver (answers_across fun t a s => h.predecessors s a t)
  preAllBy := answers_acrossAllBy fun t a s => h.predecessors s a t
  outgoing := h.successors
  outgoing_unknown s hs := h.outgoing_eq_empty hs
  isTerminal s := (answers_isTerminal s).congr Iff.rfl fun b hb => hb.trans h.isTerminal_iff
  isActionDeterministic := h.isActionDeterministic_iff
  isLabelDeterministic? := by
    obtain ⟨b, hb, hiff⟩ := h.exists_isLabelDeterministic?
    exact ⟨b, hb, hiff.trans (and_congr_right fun _ => h.distinctLabels_iff)⟩

end Consistent

/-- All that a store replies to these questions. -/
structure Replies (S A P : Type) [Element S] [Element A] where
  post : S → Except (Error S A P) (FinSet S)
  postBy : S → A → Except (Error S A P) (FinSet S)
  postAll : List S → Except (Error S A P) (FinSet S)
  postAllBy : List S → A → Except (Error S A P) (FinSet S)
  pre : S → Except (Error S A P) (FinSet S)
  preBy : S → A → Except (Error S A P) (FinSet S)
  preAll : List S → Except (Error S A P) (FinSet S)
  preAllBy : List S → A → Except (Error S A P) (FinSet S)
  outgoing : S → FinSet (A × S)
  isTerminal : S → Except (Error S A P) Bool
  isActionDeterministic : Bool
  isLabelDeterministic? : Option Bool

def replies (st : TransitionStore S A P) : Replies S A P where
  post := st.post
  postBy := st.postBy
  postAll := st.postAll
  postAllBy := st.postAllBy
  pre := st.pre
  preBy := st.preBy
  preAll := st.preAll
  preAllBy := st.preAllBy
  outgoing := st.outgoing
  isTerminal := st.isTerminal
  isActionDeterministic := st.isActionDeterministic
  isLabelDeterministic? := st.isLabelDeterministic?

section Same

variable (hstates : st.states = st'.states) (hactions : st.actions = st'.actions)
variable (hmembers : table.members = table'.members)

include hstates hmembers in
theorem across_congr : st.across table = st'.across table' := by
  funext s
  rw [across, across, checkState, checkState, hstates, hmembers]

include hstates hactions hmembers in
theorem acrossBy_congr : st.acrossBy table = st'.acrossBy table' := by
  funext s a
  rw [acrossBy, acrossBy, checkState, checkState, checkAction, checkAction, hstates, hactions,
    hmembers]

include hstates hactions hmembers in
theorem acrossAllBy_congr : st.acrossAllBy table = st'.acrossAllBy table' := by
  funext l a
  rw [acrossAllBy, acrossAllBy, checkAction, checkAction, hactions,
    acrossBy_congr hstates hactions hmembers]

theorem InStep.members_successors_eq (h : st.InStep) (h' : st'.InStep)
    (ht : st.transitions = st'.transitions) : st.successors.members = st'.successors.members := by
  funext s
  refine FinSet.ext ?_
  rintro ⟨a, t⟩
  rw [h.successors, h'.successors, ht]

theorem InStep.members_predecessors_eq (h : st.InStep) (h' : st'.InStep)
    (ht : st.transitions = st'.transitions) :
    st.predecessors.members = st'.predecessors.members := by
  funext t
  refine FinSet.ext ?_
  rintro ⟨a, s⟩
  rw [h.predecessors, h'.predecessors, ht]

theorem isLabelDeterministic?_congr (h : st.Consistent) (h' : st'.Consistent)
    (hinitial : st.initial = st'.initial) (hlabeling : st.labeling = st'.labeling)
    (hout : st.outgoing = st'.outgoing) :
    st.isLabelDeterministic? = st'.isLabelDeterministic? := by
  obtain ⟨b, hb, hiff⟩ := h.exists_isLabelDeterministic?
  obtain ⟨b', hb', hiff'⟩ := h'.exists_isLabelDeterministic?
  have hlabel : st.label = st'.label := by
    funext s
    rw [label, label, hlabeling]
  have hdistinct : st.DistinctLabels = st'.DistinctLabels := by
    funext steps
    rw [DistinctLabels, DistinctLabels, hlabel]
  rw [hinitial, hdistinct, hout, ← hiff'] at hiff
  rw [hb, hb', Bool.eq_iff_iff.mpr hiff]

/-- Only the sets and the labels are compared, and the tables follow from them. -/
theorem replies_eq_of_same (h : st.Consistent) (h' : st'.Consistent) (hsame : st.same st' = true) :
    st.replies = st'.replies := by
  simp only [same, Bool.and_eq_true, decide_eq_true_eq] at hsame
  obtain ⟨⟨⟨⟨⟨⟨_, hstates⟩, hinitial⟩, hactions⟩, _⟩, htransitions⟩, hlabeling⟩ := hsame
  have hsuccessors := h.members_successors_eq h'.toInStep htransitions
  have hpredecessors := h.members_predecessors_eq h'.toInStep htransitions
  have hout : st.outgoing = st'.outgoing := hsuccessors
  have hpost : st.post = st'.post := across_congr hstates hsuccessors
  have hpostBy : st.postBy = st'.postBy := acrossBy_congr hstates hactions hsuccessors
  have hpostAll : st.postAll = st'.postAll := congrArg unionOver hpost
  have hpostAllBy : st.postAllBy = st'.postAllBy := acrossAllBy_congr hstates hactions hsuccessors
  have hpre : st.pre = st'.pre := across_congr hstates hpredecessors
  have hpreBy : st.preBy = st'.preBy := acrossBy_congr hstates hactions hpredecessors
  have hpreAll : st.preAll = st'.preAll := congrArg unionOver hpre
  have hpreAllBy : st.preAllBy = st'.preAllBy := acrossAllBy_congr hstates hactions hpredecessors
  have hterminal : st.isTerminal = st'.isTerminal := by
    funext s
    rw [isTerminal, isTerminal, checkState, checkState, hstates, hout]
  have haction : st.isActionDeterministic = st'.isActionDeterministic := by
    rw [Bool.eq_iff_iff, isActionDeterministic_iff, isActionDeterministic_iff, hinitial, hout]
  have hlabel := isLabelDeterministic?_congr h h' hinitial hlabeling hout
  rw [replies, replies, hpost, hpostBy, hpostAll, hpostAllBy, hpre, hpreBy, hpreAll, hpreAllBy, hout,
    hterminal, haction, hlabel]

end Same

namespace TellsTransitions

variable (h : st.TellsTransitions) {s t : S} {a : A} {found found' : FinSet S}
include h

theorem mem_post_iff_mem_pre (hpost : st.post s = .ok found) (hpre : st.pre t = .ok found') :
    t ∈ found ↔ s ∈ found' := by
  rw [(h.post s).right found hpost, (h.pre t).right found' hpre]

theorem mem_postBy_iff_mem_preBy (hpost : st.postBy s a = .ok found)
    (hpre : st.preBy t a = .ok found') : t ∈ found ↔ s ∈ found' := by
  rw [(h.postBy s a).right found hpost, (h.preBy t a).right found' hpre]

end TellsTransitions

theorem ofChanges_tellsTransitions (cs : List (Change S A P)) :
    (ofChanges cs).TellsTransitions ∧
      (∀ s t found found', (ofChanges cs).post s = .ok found → (ofChanges cs).pre t = .ok found' →
        (t ∈ found ↔ s ∈ found')) ∧
      (∀ s t a found found', (ofChanges cs).postBy s a = .ok found →
        (ofChanges cs).preBy t a = .ok found' → (t ∈ found ↔ s ∈ found')) ∧
      ∀ cs', (ofChanges cs).same (ofChanges cs') = true →
        (ofChanges cs).replies = (ofChanges cs').replies := by
  have h := (consistent_ofChanges cs).tellsTransitions
  refine ⟨h, ?_, ?_, ?_⟩
  · intro s t found found' hpost hpre
    exact h.mem_post_iff_mem_pre hpost hpre
  · intro s t a found found' hpost hpre
    exact h.mem_postBy_iff_mem_preBy hpost hpre
  · intro cs' hsame
    exact replies_eq_of_same (consistent_ofChanges cs) (consistent_ofChanges cs') hsame

/-- A step from 0 to 1. -/
def stepping : List (Change Nat Nat Nat) :=
  [.addStates [0, 1, 2], .addAction 0, .addTransition ⟨0, 0, 1⟩]

/-- The same after a step from 2 was added and taken back. -/
def steppingBack : List (Change Nat Nat Nat) :=
  stepping ++ [.addTransition ⟨2, 0, 1⟩, .removeTransition ⟨2, 0, 1⟩]

theorem replies_steppingBack :
    (ofChanges steppingBack).same (ofChanges stepping) = true ∧
      (ofChanges steppingBack).successors ≠ (ofChanges stepping).successors ∧
      (ofChanges steppingBack).replies = (ofChanges stepping).replies := by
  have hsame : (ofChanges steppingBack).same (ofChanges stepping) = true := by decide +kernel
  refine ⟨hsame, by decide +kernel, ?_⟩
  exact (ofChanges_tellsTransitions steppingBack).2.2.2 stepping hsame

end TransitionStore

end OmegaCheck
