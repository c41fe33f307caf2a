import OmegaCheck.Proofs.ProgramGraph.Interleaving
import OmegaCheck.Proofs.TransitionStore

/-!
# Program graphs edited in place

Whatever edits a program graph has been through, refused ones among them, it refers to no location
that it does not have. A refused edit has written nothing. For this reason two such graphs can always
be put together part by part, and the result is their interleaving.
-/

namespace OmegaCheck.ProgramGraph

open TransitionStore (exists_ite_error_iff)

variable {L M A : Type} [Element L] [Element M] [Element A]

def edit : Change L A → Edit L A
  | .setName name => Edit.setName name
  | .addLocation l => Edit.addLocation l
  | .addLocations l => Edit.addLocations l
  | .removeLocation l => Edit.removeLocation l
  | .addInitial l => Edit.addInitial l
  | .removeInitial l => Edit.removeInitial l
  | .addInitialization actions => Edit.addInitialization actions
  | .removeInitialization actions => Edit.removeInitialization actions
  | .addEdge e => Edit.addEdge e
  | .removeEdge e => Edit.removeEdge e

/-- The graph as an edit leaves it, be it refused or not. -/
def edited (pg : ProgramGraph L A) (c : Change L A) : ProgramGraph L A :=
  match edit c pg with
  | .ok _ pg' => pg'
  | .error _ pg' => pg'

def ofEdits (cs : List (Change L A)) : ProgramGraph L A := cs.foldl edited empty

/-- An edit that takes away what is referred to, or that refers to what is not there. -/
def Refused (pg : ProgramGraph L A) : Change L A → Prop
  | .removeLocation l => l ∈ pg.initial ∨ ∃ e, e ∈ pg.edges ∧ (e.source = l ∨ e.target = l)
  | .addInitial l => l ∉ pg.locations
  | .addEdge e => e.source ∉ pg.locations ∨ e.target ∉ pg.locations
  | _ => False

section Edits

/-- What a change comes to when it is made in place: a refused one has written nothing. -/
def outcome (pg : ProgramGraph L A) : Except (Error L) (ProgramGraph L A) →
    EStateM.Result (Error L) (ProgramGraph L A) Unit
  | .ok pg' => .ok () pg'
  | .error e => .error e pg

theorem outcome_ite {pg : ProgramGraph L A} {c : Prop} [Decidable c] {e : Error L} {rest : Edit L A}
    {next : Except (Error L) (ProgramGraph L A)} (h : ¬ c → rest pg = pg.outcome next) :
    (if c then throw e else rest : Edit L A) pg = pg.outcome (if c then .error e else next) := by
  by_cases hc : c
  · rw [if_pos hc, if_pos hc]
    rfl
  · rw [if_neg hc, if_neg hc, h hc]

theorem edit_eq_outcome (pg : ProgramGraph L A) (c : Change L A) :
    edit c pg = pg.outcome (pg.change c) := by
  cases c with
  | addLocations l =>
    rw [change, addLocations_eq]
    rfl
  | removeLocation l => exact outcome_ite fun _ => outcome_ite fun _ => rfl
  | addInitial l =>
    rw [change, ProgramGraph.addInitial, ← ite_not]
    exact outcome_ite fun _ => rfl
  | addEdge e => exact outcome_ite fun _ => outcome_ite fun _ => rfl
  | _ => rfl

theorem edited_eq_changed (pg : ProgramGraph L A) (c : Change L A) :
    pg.edited c = pg.changed c := by
  rw [edited, edit_eq_outcome, changed]
  cases pg.change c <;> rfl

theorem ofEdits_eq_ofChanges (cs : List (Change L A)) : ofEdits cs = ofChanges cs := by
  have hstep : edited = changed (L := L) (A := A) :=
    funext fun pg => funext fun c => edited_eq_changed pg c
  rw [ofEdits, hstep, ofChanges]

theorem ofEdits_wellFormed (cs : List (Change L A)) : (ofEdits cs).WellFormed := by
  rw [ofEdits_eq_ofChanges]
  exact Built.wellFormed ⟨cs, rfl⟩

theorem exists_error_edit_iff (pg : ProgramGraph L A) (c : Change L A) :
    (∃ e pg', edit c pg = .error e pg') ↔ ∃ e, pg.change c = .error e := by
  rw [edit_eq_outcome]
  cases pg.change c <;> simp [outcome]

theorem exists_error_change_iff (pg : ProgramGraph L A) (c : Change L A) :
    (∃ e, pg.change c = .error e) ↔ pg.Refused c := by
  cases c with
  | removeLocation l =>
    rw [change, ProgramGraph.removeLocation, exists_ite_error_iff, exists_ite_error_iff]
    simp [Refused]
  | addInitial l =>
    rw [change, ProgramGraph.addInitial, ← ite_not, exists_ite_error_iff]
    simp [Refused]
  | addEdge e =>
    rw [change, ProgramGraph.addEdge, exists_ite_error_iff, exists_ite_error_iff]
    simp [Refused]
  | _ => simp [change, Refused]

end Edits

section Joining

variable {pg : ProgramGraph L A} {qg : ProgramGraph M A}

theorem bind_of_eq_ok {x : Edit L A} {f : Unit → Edit L A} {pg pg' : ProgramGraph L A}
    (h : x pg = .ok () pg') : (x >>= f) pg = f () pg' := by
  change EStateM.bind x f pg = f () pg'
  rw [EStateM.bind, h]

/-- Edits that each put one more member into the same set put all of them there. -/
theorem forM_eq_ok {α : Type} [Element α] {f : α → Edit L A} (put : FinSet α → ProgramGraph L A)
    {xs : List α} (h : ∀ x ∈ xs, ∀ s, f x (put s) = .ok () (put (s.insert x))) (s : FinSet α) :
    xs.forM f (put s) = .ok () (put (s.insertAll xs)) := by
  induction xs generalizing s with
  | nil => rfl
  | cons x xs ih =>
    rw [List.forall_mem_cons] at h
    rw [List.forM_eq_forM, List.forM_cons, bind_of_eq_ok (h.1 s)]
    exact ih h.2 (s.insert x)

theorem forM_addInitial (pg : ProgramGraph L A) (ls : List L) (h : ∀ l ∈ ls, l ∈ pg.locations) :
    ls.forM Edit.addInitial pg = .ok () { pg with initial := pg.initial.insertAll ls } := by
  refine forM_eq_ok (fun s => { pg with initial := s }) (fun l hl s => ?_) pg.initial
  refine (edit_eq_outcome _ (.addInitial l)).trans ?_
  rw [change, ProgramGraph.addInitial, if_pos (h l hl)]
  rfl

theorem forM_addInitialization (pg : ProgramGraph L A) (inits : List (List String)) :
    inits.forM Edit.addInitialization pg =
      .ok () { pg with initializations := pg.initializations.insertAll inits } :=
  forM_eq_ok (fun s => { pg with initializations := s }) (fun _ _ _ => rfl) _

theorem forM_addEdge (pg : ProgramGraph L A) (es : List (Edge L A))
    (h : ∀ e ∈ es, e.source ∈ pg.locations ∧ e.target ∈ pg.locations) :
    es.forM Edit.addEdge pg = .ok () { pg with edges := pg.edges.insertAll es } := by
  refine forM_eq_ok (fun s => { pg with edges := s }) (fun e he s => ?_) pg.edges
  refine (edit_eq_outcome _ (.addEdge e)).trans ?_
  rw [change, ProgramGraph.addEdge, if_neg (not_not_intro (h e he).1),
    if_neg (not_not_intro (h e he).2)]
  rfl

/-- A graph without initializations contributes the empty one. -/
def Contributes (pg : ProgramGraph L A) (i : List String) : Prop :=
  i ∈ pg.initializations ∨ (∀ j, j ∉ pg.initializations) ∧ i = []

theorem mem_initializationsOrEmpty_iff {i : List String} :
    i ∈ initializationsOrEmpty pg.initializations ↔ pg.Contributes i := by
  rw [mem_initializationsOrEmpty, mem_orEmpty, FinSet.mem_toList, ← List.isEmpty_iff]
  exact or_congr_right (and_congr_left' FinSet.isEmpty_iff)

theorem mem_initializations_interleave {i : List String} :
    i ∈ (pg.interleave qg).initializations ↔
      (∃ j, j ∈ pg.initializations ∨ j ∈ qg.initializations) ∧
        ∃ first second, pg.Contributes first ∧ qg.Contributes second ∧ first ++ second = i := by
  have hnone : (pg.initializations.isEmpty && qg.initializations.isEmpty) = true ↔
      ¬ ∃ j, j ∈ pg.initializations ∨ j ∈ qg.initializations := by
    rw [Bool.and_eq_true, FinSet.isEmpty_iff, FinSet.isEmpty_iff]
    simp only [not_exists, not_or, forall_and]
  change i ∈ jointInitializations pg.initializations qg.initializations ↔ _
  rw [jointInitializations]
  split
  · next h => simp [hnone.mp h]
  · next h =>
    rw [hnone, not_not] at h
    simp only [FinSet.mem_image, FinSet.mem_product, mem_initializationsOrEmpty_iff, Prod.exists,
      and_assoc, h, true_and]

theorem insertAll_initializations :
    FinSet.insertAll ∅ (((pg.initializations.product qg.initializations).toList.map
        fun x => x.1 ++ x.2) ++
      (if pg.initializations.isEmpty then qg.initializations.toList else []) ++
      (if qg.initializations.isEmpty then pg.initializations.toList else [])) =
        (pg.interleave qg).initializations := by
  refine FinSet.ext fun i => ?_
  simp only [FinSet.mem_insertAll, mem_initializations_interleave, List.mem_append, List.mem_map,
    FinSet.mem_toList, FinSet.mem_product, Prod.exists, FinSet.not_mem_empty, or_false,
    List.mem_ite_nil_right, FinSet.isEmpty_iff]
  constructor
  · rintro ((⟨first, second, ⟨hfirst, hsecond⟩, rfl⟩ | ⟨hnone, hi⟩) | ⟨hnone, hi⟩)
    · exact ⟨⟨first, .inl hfirst⟩, first, second, .inl hfirst, .inl hsecond, rfl⟩
    · exact ⟨⟨i, .inr hi⟩, [], i, .inr ⟨hnone, rfl⟩, .inl hi, rfl⟩
    · exact ⟨⟨i, .inl hi⟩, i, [], .inl hi, .inr ⟨hnone, rfl⟩, List.append_nil i⟩
  · rintro ⟨⟨j, hj⟩, first, second, hfirst | ⟨hnone, rfl⟩, hsecond | ⟨hnone', rfl⟩, rfl⟩
    · exact .inl (.inl ⟨first, second, ⟨hfirst, hsecond⟩, rfl⟩)
    · exact .inr ⟨hnone', by rwa [List.append_nil]⟩
    · exact .inl (.inr ⟨hnone, hsecond⟩)
    · exact absurd hj (not_or_intro (hnone j) (hnone' j))

theorem insertAll_edges :
    FinSet.insertAll (FinSet.insertAll ∅
      (pg.edges.toList.flatMap fun e => qg.locations.toList.map fun m => leftEdge m e))
      (qg.edges.toList.flatMap fun e => pg.locations.toList.map fun l => rightEdge l e) =
        (pg.interleave qg).edges := by
  refine FinSet.ext fun e => ?_
  simp [mem_edges_interleave, or_comm]

theorem insertAll_toList {α : Type} [Element α] (s : FinSet α) :
    FinSet.insertAll ∅ s.toList = s :=
  FinSet.ext fun a => by simp

theorem addInterleaving_empty (hpg : pg.WellFormed) (hqg : qg.WellFormed) :
    pg.addInterleaving qg empty = .ok () (pg.interleave qg) := by
  let joint := pg.interleave qg
  let left := pg.edges.toList.flatMap fun e => qg.locations.toList.map fun m => leftEdge m e
  have hjoint : joint.WellFormed := hpg.interleave hqg
  have hends : ∀ e, e ∈ joint.edges → e.source ∈ joint.locations ∧ e.target ∈ joint.locations :=
    fun e he => ⟨hjoint.source e he, hjoint.target e he⟩
  rw [← insertAll_edges] at hends
  have hlocated : Edit.addLocations joint.locations.toList empty =
      .ok () { locations := joint.locations } :=
    congrArg (fun s => EStateM.Result.ok () ({ locations := s } : ProgramGraph (L × M) A))
      (insertAll_toList joint.locations)
  have hstarted := forM_addInitial (A := A) { locations := joint.locations }
    joint.initial.toList fun l hl => hjoint.initial l (FinSet.mem_toList.mp hl)
  rw [insertAll_toList] at hstarted
  have hleft := forM_addEdge
    { locations := joint.locations, initial := joint.initial,
      initializations := joint.initializations } left
    fun e he => hends e (FinSet.mem_insertAll.mpr (.inr (FinSet.mem_insertAll.mpr (.inl he))))
  have hright := forM_addEdge
    { locations := joint.locations, initial := joint.initial,
      initializations := joint.initializations, edges := FinSet.insertAll ∅ left } _
    fun e he => hends e (FinSet.mem_insertAll.mpr (.inl he))
  rw [insertAll_edges] at hright
  refine (bind_of_eq_ok hlocated).trans ((bind_of_eq_ok hstarted).trans ?_)
  refine (bind_of_eq_ok (forM_addInitialization _ _)).trans ?_
  rw [insertAll_initializations]
  exact (bind_of_eq_ok hleft).trans hright

theorem interleaveChecked_eq_ok (hpg : pg.WellFormed) (hqg : qg.WellFormed) :
    pg.interleaveChecked qg = .ok (pg.interleave qg) := by
  rw [interleaveChecked, addInterleaving_empty hpg hqg]

end Joining

/-- The graph of two graphs that share a memory and are otherwise on their own. -/
structure IsInterleaving (pg : ProgramGraph L A) (qg : ProgramGraph M A)
    (joint : ProgramGraph (L × M) A) : Prop where
  wellFormed : joint.WellFormed
  locations : ∀ l m, (l, m) ∈ joint.locations ↔ l ∈ pg.locations ∧ m ∈ qg.locations
  initial : ∀ l m, (l, m) ∈ joint.initial ↔ l ∈ pg.initial ∧ m ∈ qg.initial
  edges : ∀ e, e ∈ joint.edges ↔
    (∃ f m, f ∈ pg.edges ∧ m ∈ qg.locations ∧
      e = ⟨(f.source, m), f.guard, f.action, (f.target, m)⟩) ∨
    ∃ f l, f ∈ qg.edges ∧ l ∈ pg.locations ∧ e = ⟨(l, f.source), f.guard, f.action, (l, f.target)⟩
  initializations : ∀ i, i ∈ joint.initializations ↔
    (∃ j, j ∈ pg.initializations ∨ j ∈ qg.initializations) ∧
      ∃ first second, pg.Contributes first ∧ qg.Contributes second ∧ first ++ second = i

theorem isInterleaving_interleave {pg : ProgramGraph L A} {qg : ProgramGraph M A}
    (hpg : pg.WellFormed) (hqg : qg.WellFormed) : IsInterleaving pg qg (pg.interleave qg) where
  wellFormed := hpg.interleave hqg
  locations _ _ := FinSet.mem_product
  initial _ _ := FinSet.mem_product
  edges e := by
    rw [mem_edges_interleave]
    simp only [leftEdge, rightEdge, eq_comm]
  initializations _ := mem_initializations_interleave

theorem ofEdits_atomic_and_interleaves (cs : List (Change L A)) (ds : List (Change M A)) :
    (ofEdits cs).WellFormed ∧
      (∀ c, ((∃ e pg, edit c (ofEdits cs) = .error e pg) ↔ (ofEdits cs).Refused c) ∧
        ∀ e pg, edit c (ofEdits cs) = .error e pg → pg = ofEdits cs) ∧
      ∃ joint, interleaveChecked (ofEdits cs) (ofEdits ds) = .ok joint ∧
        IsInterleaving (ofEdits cs) (ofEdits ds) joint := by
  have hcs := ofEdits_wellFormed cs
  have hds := ofEdits_wellFormed ds
  refine ⟨hcs, fun c => ⟨?_, fun e pg he => ?_⟩, ?_⟩
  · rw [exists_error_edit_iff, exists_error_change_iff]
  · rw [edit_eq_outcome] at he
    cases hc : (ofEdits cs).change c with
    | ok pg' =>
      rw [hc] at he
      cases he
    | error e' =>
      rw [hc] at he
      cases he
      rfl
  · exact ⟨_, interleaveChecked_eq_ok hcs hds, isInterleaving_interleave hcs hds⟩

end OmegaCheck.ProgramGraph
