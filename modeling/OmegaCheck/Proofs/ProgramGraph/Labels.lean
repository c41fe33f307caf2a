import OmegaCheck.Proofs.Bindings
import OmegaCheck.Proofs.ProgramGraph.Independence

/-!
# Labels of unfolded programs

The label of a state is a set of texts: one for its location and one for each binding of its memory.
For programs and interleavings of programs the state can be read off its label. No location is
written like a binding, since the equals signs of a program are parts of longer symbols. A pair of
locations is taken apart at a comma: programs contain none, so all locations of a graph contain
equally many, one for each interleaving.
-/

namespace OmegaCheck

namespace Text

/-- Every equals sign stands next to a character other than a blank. -/
def Glued (cs : List Char) : Prop :=
  ∀ i < cs.length, cs[i]? = some '=' →
    ∃ j < cs.length, (j + 1 = i ∨ i + 1 = j) ∧ cs[j]? ≠ some ' '

instance : DecidablePred Glued := fun cs =>
  inferInstanceAs (Decidable (∀ i < cs.length, cs[i]? = some '=' →
    ∃ j < cs.length, (j + 1 = i ∨ i + 1 = j) ∧ cs[j]? ≠ some ' '))

theorem glued_of_not_mem {cs : List Char} (h : '=' ∉ cs) : Glued cs :=
  fun _ _ heq => absurd (List.mem_of_getElem? heq) h

theorem Glued.append {cs ds : List Char} (hcs : Glued cs) (hds : Glued ds) : Glued (cs ++ ds) := by
  intro i hi heq
  rw [List.length_append] at hi ⊢
  by_cases hlt : i < cs.length
  · rw [List.getElem?_append_left hlt] at heq
    obtain ⟨j, hj, hnext, hne⟩ := hcs i hlt heq
    rw [← List.getElem?_append_left hj] at hne
    exact ⟨j, by omega, hnext, hne⟩
  · rw [List.getElem?_append_right (by omega)] at heq
    obtain ⟨j, hj, hnext, hne⟩ := hds (i - cs.length) (by omega) heq
    refine ⟨cs.length + j, by omega, by omega, ?_⟩
    rwa [List.getElem?_append_right (by omega), Nat.add_sub_cancel_left]

theorem not_glued_binding (x : String) (c : Cell) : ¬ Glued (x ++ " = " ++ c.text).toList := by
  intro h
  have hchars : (x ++ " = " ++ c.text).toList =
      x.toList ++ ' ' :: '=' :: ' ' :: c.text.toList := by simp
  rw [hchars] at h
  obtain ⟨j, _, hnext, hne⟩ := h (x.toList.length + 1) (by simp) (by simp)
  obtain rfl | rfl : j = x.toList.length ∨ j = x.toList.length + 2 := by omega
  · simp at hne
  · simp at hne

end Text

theorem Spelled.glued {symbols : List String} {t : String} (h : Spelled symbols t)
    (hsymbols : ∀ s ∈ symbols, Text.Glued s.toList) : Text.Glued t.toList := by
  induction h with
  | empty => decide
  | name h => exact Text.glued_of_not_mem (not_mem_of_not_continuesWord h (by decide))
  | number n => exact Text.glued_of_not_mem (not_mem_repr (by decide) n)
  | symbol h => exact hsymbols _ h
  | append _ _ ihs iht =>
    rw [String.toList_append]
    exact ihs.append iht

namespace LocationText

variable {l l' m m' : String}

theorem toList_pairText :
    (pairText l m).toList = ('<' :: l.toList) ++ ',' :: ' ' :: (m.toList ++ ['>']) := by
  simp [pairText]

theorem count_pairText :
    (pairText l m).toList.count ',' = l.toList.count ',' + m.toList.count ',' + 1 := by
  have hfront : ('<' :: l.toList).count ',' = l.toList.count ',' :=
    List.count_cons_of_ne (by decide)
  have hback : (' ' :: (m.toList ++ ['>'])).count ',' = m.toList.count ',' := by
    rw [List.count_cons_of_ne (by decide), List.count_append]
    rfl
  rw [toList_pairText, List.count_append, hfront, List.count_cons_self, hback]
  omega

theorem pairText_inj (h : pairText l m = pairText l' m')
    (hcount : l.toList.count ',' = l'.toList.count ',') : l = l' ∧ m = m' := by
  have hchars := congrArg String.toList h
  rw [toList_pairText, toList_pairText] at hchars
  obtain ⟨hfirst, hsecond⟩ :=
    Text.append_cons_inj_of_count_eq hchars (by simpa [List.count_cons] using hcount)
  have hback := List.append_cancel_right (List.cons.inj hsecond).2
  exact ⟨String.toList_inj.mp (List.cons.inj hfirst).2, String.toList_inj.mp hback⟩

theorem glued_pairText (hl : Text.Glued l.toList) (hm : Text.Glued m.toList) :
    Text.Glued (pairText l m).toList := by
  have hopening : Text.Glued ['<'] := by decide
  have hcomma : Text.Glued [',', ' '] := by decide
  have hclosing : Text.Glued ['>'] := by decide
  have hall := (((hopening.append hl).append hcomma).append hm).append hclosing
  simpa [toList_pairText] using hall

end LocationText

namespace ProgramGraph

/-- Programs, alone or interleaved in any nesting. -/
inductive IsComposed :
    {L : Type} → [Element L] → [LocationText L] → ProgramGraph L → Prop where
  | process {pg : ProgramGraph String} (h : pg.IsProcess) : IsComposed pg
  | interleave {L M : Type} [Element L] [Element M] [LocationText L] [LocationText M]
      {pg : ProgramGraph L} {qg : ProgramGraph M} {joint : ProgramGraph (L × M)}
      (hpg : IsComposed pg) (hqg : IsComposed qg) (h : pg.interleaveChecked qg = .ok joint) :
      IsComposed joint

/-- The text of a location is that of no other one and of no binding. -/
structure Legible {L : Type} [Element L] [LocationText L] (pg : ProgramGraph L) : Prop where
  commas : ∃ n, ∀ l, l ∈ pg.locations → (locationText l).toList.count ',' = n
  glued : ∀ l, l ∈ pg.locations → Text.Glued (locationText l).toList
  injective : ∀ l m, l ∈ pg.locations → m ∈ pg.locations → locationText l = locationText m → l = m

theorem IsProcess.wellFormed {pg : ProgramGraph String} (h : pg.IsProcess) : pg.WellFormed := by
  obtain ⟨source, base, hbase, hpg⟩ := h
  obtain ⟨s, hparse, hcompile⟩ := exists_of_ofSource hbase
  have hconfined := Stmt.confined (Stmt.accepted_of_parse hparse) hcompile
  rw [hpg]
  exact ⟨hconfined.wellFormed.initial, hconfined.wellFormed.source, hconfined.wellFormed.target⟩

theorem IsProcess.spelled {pg : ProgramGraph String} (h : pg.IsProcess) {l : String}
    (hl : l ∈ pg.locations) : Spelled Stmt.symbols l := by
  obtain ⟨source, base, hbase, hpg⟩ := h
  obtain ⟨s, hparse, hcompile⟩ := exists_of_ofSource hbase
  have hs := Stmt.wellFormed_of_accepted (Stmt.accepted_of_parse hparse)
  rw [hpg] at hl
  obtain rfl | ⟨r, hr, rfl⟩ := (Stmt.mem_locations_iff hs hcompile).mp hl
  · exact .empty
  · exact Stmt.spelled_text (hr.all hs)

theorem IsProcess.legible {pg : ProgramGraph String} (h : pg.IsProcess) : pg.Legible where
  commas := by
    refine ⟨0, fun l hl => List.count_eq_zero_of_not_mem ?_⟩
    exact (h.spelled hl).not_mem (by decide) (by decide)
  glued l hl := (h.spelled hl).glued (by decide)
  injective _ _ _ _ heq := heq

section Interleaving

variable {L M : Type} [Element L] [Element M] [LocationText L] [LocationText M]
  {pg : ProgramGraph L} {qg : ProgramGraph M}

theorem Legible.interleave (hpg : pg.Legible) (hqg : qg.Legible) :
    (pg.interleave qg).Legible where
  commas := by
    obtain ⟨n, hn⟩ := hpg.commas
    obtain ⟨k, hk⟩ := hqg.commas
    refine ⟨n + k + 1, fun l hl => ?_⟩
    obtain ⟨hleft, hright⟩ := FinSet.mem_product.mp hl
    rw [← hn l.1 hleft, ← hk l.2 hright]
    exact LocationText.count_pairText
  glued l hl := by
    obtain ⟨hleft, hright⟩ := FinSet.mem_product.mp hl
    exact LocationText.glued_pairText (hpg.glued l.1 hleft) (hqg.glued l.2 hright)
  injective l m hl hm heq := by
    obtain ⟨hleft, hright⟩ := FinSet.mem_product.mp hl
    obtain ⟨hleft', hright'⟩ := FinSet.mem_product.mp hm
    obtain ⟨n, hn⟩ := hpg.commas
    have hcount := (hn l.1 hleft).trans (hn m.1 hleft').symm
    obtain ⟨hfirst, hsecond⟩ := LocationText.pairText_inj heq hcount
    have hl := hpg.injective _ _ hleft hleft' hfirst
    have hm := hqg.injective _ _ hright hright' hsecond
    exact Prod.ext hl hm

end Interleaving

section Labels

variable {L : Type} [Element L] [LocationText L] {pg : ProgramGraph L} {es : Evaluators}
  {bounds : Bounds} {ts : TransitionSystem (L × Memory) String String}

theorem IsComposed.wellFormed_legible (h : pg.IsComposed) : pg.WellFormed ∧ pg.Legible := by
  induction h with
  | process h => exact ⟨h.wellFormed, h.legible⟩
  | interleave _ _ hjoint ihp ihq =>
    cases (interleaveChecked_eq_ok ihp.1 ihq.1).symm.trans hjoint
    exact ⟨ihp.1.interleave ihq.1, ihp.2.interleave ihq.2⟩

/-- The labels of an unfolding tell where the program is and what is stored. -/
structure LabelsIdentify (ts : TransitionSystem (L × Memory) String String) : Prop where
  binding : ∀ l m, (l, m) ∈ ts.states → ∀ (x : String) (c : Cell),
    x ++ " = " ++ c.text ∈ ts.labelOf (l, m) ↔ m.get? x = some c
  /-- The one text in the label that is not written like a binding is that of the location. -/
  location : ∀ l m, (l, m) ∈ ts.states → ∀ p,
    p ∈ ts.labelOf (l, m) ∧ (∀ (x : String) (c : Cell), p ≠ x ++ " = " ++ c.text) ↔
      p = locationText l
  injective : ∀ s t, s ∈ ts.states → t ∈ ts.states → ts.labelOf s = ts.labelOf t → s = t

theorem labelOf_of_unfold (h : pg.unfold es bounds = .ok ts) {l : L} {m : Memory}
    (hs : (l, m) ∈ ts.states) :
    ts.labelOf (l, m) = FinSet.ofList (locationText l :: m.propositions) := by
  obtain ⟨_, space, _, _, rfl⟩ := unfold_eq_ok_iff.mp h
  exact StateSpace.labelOf_toSystem hs

theorem WellFormed.mem_locations_of_unfold (hpg : pg.WellFormed)
    (h : pg.unfold es bounds = .ok ts) {l : L} {m : Memory} (hs : (l, m) ∈ ts.states) :
    l ∈ pg.locations := by
  obtain ⟨_, space, _, hspace, rfl⟩ := unfold_eq_ok_iff.mp h
  exact hpg.mem_locations_of_reached
    (((StateSpace.isReachable_of_explore hspace).mem_states _).mp hs)

theorem Legible.locationText_ne_binding (h : pg.Legible) {l : L} (hl : l ∈ pg.locations)
    (x : String) (c : Cell) : locationText l ≠ x ++ " = " ++ c.text := by
  intro heq
  have hglued := h.glued l hl
  rw [heq] at hglued
  exact Text.not_glued_binding x c hglued

/-- A state of an unfolding of programs can be read off its label. -/
theorem unfold_labelsIdentify (hpg : pg.IsComposed) (h : pg.unfold es bounds = .ok ts) :
    LabelsIdentify ts := by
  obtain ⟨hwellFormed, hlegible⟩ := hpg.wellFormed_legible
  have hbinding : ∀ l m, (l, m) ∈ ts.states → ∀ (x : String) (c : Cell),
      x ++ " = " ++ c.text ∈ ts.labelOf (l, m) ↔ m.get? x = some c := by
    intro l m hs x c
    have hl := hwellFormed.mem_locations_of_unfold h hs
    rw [labelOf_of_unfold h hs, FinSet.mem_ofList, List.mem_cons,
      or_iff_right (hlegible.locationText_ne_binding hl x c).symm]
    exact Memory.binding_mem_propositions
  have hlocation : ∀ l m, (l, m) ∈ ts.states → ∀ p,
      p ∈ ts.labelOf (l, m) ∧ (∀ (x : String) (c : Cell), p ≠ x ++ " = " ++ c.text) ↔
        p = locationText l := by
    intro l m hs p
    have hl := hwellFormed.mem_locations_of_unfold h hs
    rw [labelOf_of_unfold h hs, FinSet.mem_ofList, List.mem_cons]
    constructor
    · rintro ⟨rfl | hp, hne⟩
      · rfl
      · obtain ⟨x, c, _, heq⟩ := Memory.mem_propositions.mp hp
        exact absurd heq.symm (hne x c)
    · rintro rfl
      exact ⟨.inl rfl, hlegible.locationText_ne_binding hl⟩
  refine ⟨hbinding, hlocation, ?_⟩
  -- Equal labels contain the same bindings, and have the same text left over for the location.
  rintro ⟨l, m⟩ ⟨l', m'⟩ hs ht heq
  have htext : locationText l = locationText l' := by
    rw [← hlocation l' m' ht, ← heq, hlocation l m hs]
  have hl : l = l' := hlegible.injective l l' (hwellFormed.mem_locations_of_unfold h hs)
    (hwellFormed.mem_locations_of_unfold h ht) htext
  have hm : m = m' := by
    refine Memory.ext fun x => Option.ext fun c => ?_
    rw [← hbinding l m hs, heq, hbinding l' m' ht]
  rw [hl, hm]

end Labels

/-- The label tells that the variable is set and that the message is on its way. -/
theorem unfold_setting_buffering_labelsIdentify : ∃ joint horizon ts m,
    setting.graph.interleaveChecked buffering.graph = .ok joint ∧ joint.IsComposed ∧
    joint.unfold Evaluators.standard { horizon := horizon } = .ok ts ∧ LabelsIdentify ts ∧
    (("", "c?y"), m) ∈ ts.states ∧
    ts.labelOf (("", "c?y"), m) = FinSet.ofList ["<, c?y>", "c = [7]", "x = 1"] ∧
    m.get? "x" = some (.int 1) ∧ m.get? "c" = some (.queue [7]) ∧ m.get? "y" = none := by
  have hsetting := Stmt.confined (by decide) setting.compile_eq_graph
  have hbuffering := Stmt.confined (by decide) buffering.compile_eq_graph
  have hjoint := interleaveChecked_eq_ok hsetting.wellFormed hbuffering.wellFormed
  have hcomposed : (setting.graph.interleave buffering.graph).IsComposed :=
    .interleave (.process (isProcess_graph (by decide) rfl))
      (.process (isProcess_graph (by decide) rfl)) hjoint
  obtain ⟨ts₁, h₁, _, hs⟩ := exists_unfold_setting
  obtain ⟨ts₂, h₂, _, ht⟩ := exists_unfold_buffering
  obtain ⟨horizon, ts, h⟩ := (hsetting.exists_unfold_interleave_iff hbuffering (by decide)).mpr
    ⟨⟨_, _, h₁⟩, _, _, h₂⟩
  have hidentify := unfold_labelsIdentify hcomposed h
  have hstate := hsetting.merge_mem_states hbuffering (by decide) h h₁ h₂ hs ht
  have hlabel := labelOf_of_unfold h hstate
  have hread := fun x c => (hidentify.binding _ _ hstate x c).mp
  refine ⟨_, horizon, ts, _, hjoint, hcomposed, h, hidentify, hstate, hlabel, ?_, ?_, rfl⟩
  · exact hread "x" (.int 1) (by rw [hlabel]; decide)
  · exact hread "c" (.queue [7]) (by rw [hlabel]; decide)

end ProgramGraph

end OmegaCheck
