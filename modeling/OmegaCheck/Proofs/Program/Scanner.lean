import OmegaCheck.Proofs.Program.Cutting
import OmegaCheck.Proofs.Program.Derivation

/-!
# Reading with one token of lookahead

A reader takes one token after the other and looks at one token more. What it has taken when it
stops is a phrase of the grammar or can be completed to one, and what stands behind the token that it
stopped at makes no difference. Readers that are put together from such readers are such readers.
-/

namespace OmegaCheck.Parser

section Outcomes

variable {α : Type} {n : Nat}

theorem outcome_eq_ok_iff {r : Reading α n} {v : α} {rest : List Token} :
    outcome r = .ok (v, rest) ↔ Yields r v rest := by
  cases r with
  | error e => simp [outcome, Except.map, Yields]
  | ok p =>
    constructor
    · intro h
      cases h
      exact ⟨p.fewer, rfl⟩
    · rintro ⟨_, h⟩
      cases h
      rfl

theorem outcome_eq_error_iff {r : Reading α n} {e : Refusal} :
    outcome r = .error e ↔ r = .error e := by
  cases r <;> simp [outcome, Except.map]

end Outcomes

/-- More tokens can be written behind these to make them a phrase. -/
def CanEnd (L : List Token → Prop) (ts : List Token) : Prop :=
  ∃ more, (∀ t ∈ more, t.Spellable) ∧ L (ts ++ more)

/-- The reader takes some tokens from the front, which are a phrase or can be completed to one. What
it does is the same whatever follows, as long as the first token that it leaves is the same. -/
inductive ReadsAt {α : Type} (R : Scanner α) (L : List Token → Prop) (ts : List Token) : Prop
  | ok (front rest : List Token) (v : α) (hts : ts = front ++ rest)
      (hread : ∀ rest', rest'.head? = rest.head? → R (front ++ rest') = .ok (v, rest'))
      (hfront : L front)
  | error (front rest : List Token) (reason : Reason) (hts : ts = front ++ rest)
      (hread : ∀ rest', rest'.head? = rest.head? → R (front ++ rest') = .error ⟨reason, rest'⟩)
      (hfront : CanEnd L front)

section Composition

variable {α β : Type} {L M N : List Token → Prop} {ts : List Token}

theorem CanEnd.append {front : List Token} (h : CanEnd L front) (hend : CanEnd M [])
    (hseq : ∀ w w', L w → M w' → N (w ++ w')) : CanEnd N front := by
  obtain ⟨more, hmore, hfront⟩ := h
  obtain ⟨more', hmore', hlast⟩ := hend
  refine ⟨more ++ more', ?_, ?_⟩
  · intro t ht
    exact (List.mem_append.mp ht).elim (hmore t) (hmore' t)
  · rw [← List.append_assoc]
    exact hseq _ _ hfront hlast

theorem head?_append_congr (front : List Token) {rest rest' : List Token}
    (h : rest'.head? = rest.head?) : (front ++ rest').head? = (front ++ rest).head? := by
  rw [List.head?_append, List.head?_append, h]

theorem ReadsAt.bind {R : Scanner α} {T : Scanner β} {S : α → Scanner β}
    (hT : ∀ us, us.head? = ts.head? → T us = followed (R us) S) (h : ReadsAt R L ts)
    (hS : ∀ v mid, R ts = .ok (v, mid) → ReadsAt (S v) M mid) (hend : CanEnd M [])
    (hseq : ∀ w w', L w → M w' → N (w ++ w')) : ReadsAt T N ts := by
  cases h with
  | error front rest reason hts hread hfront =>
    subst hts
    refine .error front rest reason rfl (fun rest' hrest => ?_) (hfront.append hend hseq)
    rw [hT _ (head?_append_congr front hrest), hread rest' hrest]
    rfl
  | ok front mid v hts hread hfront =>
    subst hts
    cases hS v mid (hread mid rfl) with
    | ok front' rest w hmid hread' hfront' =>
      subst hmid
      refine .ok (front ++ front') rest w (by rw [List.append_assoc]) (fun rest' hrest => ?_)
        (hseq _ _ hfront hfront')
      have hhead := head?_append_congr front' hrest
      rw [List.append_assoc, hT _ (head?_append_congr front hhead), hread _ hhead]
      exact hread' rest' hrest
    | error front' rest reason hmid hread' hfront' =>
      subst hmid
      refine .error (front ++ front') rest reason (by rw [List.append_assoc])
        (fun rest' hrest => ?_) ?_
      · have hhead := head?_append_congr front' hrest
        rw [List.append_assoc, hT _ (head?_append_congr front hhead), hread _ hhead]
        exact hread' rest' hrest
      · obtain ⟨more, hmore, hphrase⟩ := hfront'
        exact ⟨more, hmore, by rw [List.append_assoc]; exact hseq _ _ hfront hphrase⟩

/-- A reader that takes a token and goes on as another one does. -/
theorem ReadsAt.cons {t : Token} {S T : Scanner α}
    (hT : ∀ us, us.head? = ts.head? → T (t :: us) = S us) (h : ReadsAt S L ts)
    (hL : ∀ w, L w → M (t :: w)) : ReadsAt T M (t :: ts) := by
  cases h with
  | ok front rest v hts hread hfront =>
    subst hts
    refine .ok (t :: front) rest v rfl (fun rest' hrest => ?_) (hL _ hfront)
    rw [List.cons_append, hT _ (head?_append_congr front hrest), hread rest' hrest]
  | error front rest reason hts hread hfront =>
    subst hts
    obtain ⟨more, hmore, hphrase⟩ := hfront
    refine .error (t :: front) rest reason rfl (fun rest' hrest => ?_) ⟨more, hmore, hL _ hphrase⟩
    rw [List.cons_append, hT _ (head?_append_congr front hrest), hread rest' hrest]

theorem ReadsAt.map {R : Scanner α} {T : Scanner β} {f : α → β}
    (hT : ∀ us, us.head? = ts.head? → T us = followed (R us) fun v mid => .ok (f v, mid))
    (h : ReadsAt R L ts) (hL : ∀ w, L w → M w) : ReadsAt T M ts := by
  refine h.bind (M := (· = [])) hT ?_ ⟨[], by simp, rfl⟩ ?_
  · intro v mid _
    exact .ok [] mid (f v) rfl (fun _ _ => rfl) rfl
  · rintro w _ hw rfl
    rw [List.append_nil]
    exact hL w hw

theorem ReadsAt.congr {R T : Scanner α} (hT : ∀ us, us.head? = ts.head? → T us = R us)
    (h : ReadsAt R L ts) (hL : ∀ w, L w → M w) : ReadsAt T M ts := by
  refine h.map (f := id) (fun us hus => ?_) hL
  rw [hT us hus]
  cases R us <;> rfl

theorem readsAt_nothing {R : Scanner α} {v : α}
    (hR : ∀ us, us.head? = ts.head? → R us = .ok (v, us)) (hL : L []) : ReadsAt R L ts :=
  .ok [] ts v rfl hR hL

theorem readsAt_refused {R : Scanner α} (reason : Reason)
    (hR : ∀ us, us.head? = ts.head? → R us = .error ⟨reason, us⟩) (hL : CanEnd L []) :
    ReadsAt R L ts :=
  .error [] ts reason rfl hR hL

theorem readsAt_refused_nil {R : Scanner α} (reason : Reason) (hR : R [] = .error ⟨reason, []⟩)
    (hL : CanEnd L []) : ReadsAt R L [] := by
  refine readsAt_refused reason (fun us hus => ?_) hL
  rw [List.head?_eq_none_iff.mp hus, hR]

theorem readsAt_refused_cons {R : Scanner α} {t : Token} (reason : Reason)
    (hR : ∀ us, R (t :: us) = .error ⟨reason, t :: us⟩) (hL : CanEnd L []) :
    ReadsAt R L (t :: ts) := by
  refine readsAt_refused reason (fun us hus => ?_) hL
  obtain ⟨rest, rfl⟩ := List.head?_eq_some_iff.mp hus
  exact hR rest

theorem readsAt_token {R : Scanner α} {t : Token} {v : α} (hR : ∀ us, R (t :: us) = .ok (v, us))
    (hL : L [t]) : ReadsAt R L (t :: ts) :=
  .ok [t] ts v rfl (fun us _ => hR us) hL

theorem head?_ne_of_ne_cons {t : Token} (h : ∀ rest, ts ≠ t :: rest) : ts.head? ≠ some t := by
  intro hhead
  obtain ⟨rest, hrest⟩ := List.head?_eq_some_iff.mp hhead
  exact h rest hrest

theorem ne_cons_of_head?_eq {us : List Token} {t : Token} (h : us.head? = ts.head?)
    (hts : ∀ rest, ts ≠ t :: rest) (rest : List Token) : us ≠ t :: rest := by
  rintro rfl
  exact head?_ne_of_ne_cons hts h.symm

end Composition

section Terminals

theorem canEnd_token (t : Token) (ht : t.Spellable) : CanEnd (· = [t]) [] :=
  ⟨[t], by simpa using ht, rfl⟩

theorem readsAt_expect (t : Token) (ht : t.Spellable) (ts : List Token) :
    ReadsAt (fun ts => outcome (expect t ts)) (· = [t]) ts := by
  have hend := canEnd_token t ht
  cases ts with
  | nil => exact readsAt_refused_nil (.expected (.token t)) rfl hend
  | cons u ts =>
    by_cases hu : u = t
    · subst hu
      exact readsAt_token (fun us => outcome_eq_ok_iff.mpr (yields_expect u us)) rfl
    · refine readsAt_refused_cons (.expected (.token t)) (fun us => ?_) hend
      rw [outcome_eq_error_iff, expect, if_neg hu]
      rfl

theorem spellable_x : (Token.ident "x").Spellable :=
  show isIdentifier "x" = true by decide

theorem readsAt_identifier (ts : List Token) :
    ReadsAt (fun ts => outcome (identifier ts)) (fun w => ∃ name, w = [.ident name]) ts := by
  have hend : CanEnd (fun w => ∃ name, w = [.ident name]) [] :=
    ⟨[.ident "x"], by simpa using spellable_x, "x", rfl⟩
  cases ts with
  | nil => exact readsAt_refused_nil (.expected .identifier) rfl hend
  | cons t ts =>
    cases t with
    | ident name => exact readsAt_token (fun _ => rfl) ⟨name, rfl⟩
    | _ => exact readsAt_refused_cons (.expected .identifier) (fun _ => rfl) hend

end Terminals

/-- A phrase of one kind and one of another behind it. -/
def Then (L M : List Token → Prop) (w : List Token) : Prop := ∃ u v, L u ∧ M v ∧ u ++ v = w

section Sequences

variable {α β : Type} {L M N : List Token → Prop} {ts : List Token}

/-- What a reader refuses in an empty text can be written. -/
theorem ReadsAt.canEnd {R : Scanner α} (h : ReadsAt R L []) : CanEnd L [] := by
  cases h with
  | ok front rest v hts hread hfront =>
    obtain ⟨rfl, rfl⟩ := List.nil_eq_append_iff.mp hts
    exact ⟨[], by simp, hfront⟩
  | error front rest reason hts hread hfront =>
    obtain ⟨rfl, rfl⟩ := List.nil_eq_append_iff.mp hts
    exact hfront

theorem CanEnd.before (hL : CanEnd L []) (hM : CanEnd M []) : CanEnd (Then L M) [] :=
  hL.append hM fun u v hu hv => ⟨u, v, hu, hv, rfl⟩

theorem ReadsAt.before {R : Scanner α} {S : α → Scanner β} (h : ReadsAt R L ts)
    (hS : ∀ v mid, R ts = .ok (v, mid) → ReadsAt (S v) M mid) (hend : CanEnd M []) :
    ReadsAt (fun us => followed (R us) S) (Then L M) ts :=
  h.bind (fun _ _ => rfl) hS hend fun u v hu hv => ⟨u, v, hu, hv, rfl⟩

theorem ReadsAt.returning {R : Scanner α} (h : ReadsAt R L ts) (f : α → β) :
    ReadsAt (fun us => followed (R us) fun v mid => .ok (f v, mid)) L ts :=
  h.map (fun _ _ => rfl) fun _ => id

end Sequences

/-- The tokens of a derivation. -/
def Formed {T : Type} (tokens : T → List Token) (w : List Token) : Prop := ∃ d, tokens d = w

end OmegaCheck.Parser
