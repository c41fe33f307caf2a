import OmegaCheck.Channel
import OmegaCheck.Proofs.Program.Acceptance
import OmegaCheck.Proofs.Program.Meaning
import OmegaCheck.Proofs.Program.Spelling

/-!
# Channel actions by their text

Sends and receives are told apart by looking for marks in their text. For actions whose names are
identifiers this finds what a look at the action itself would find: only a receive contains the mark
of a receive, no part of an identifier can be mistaken for a mark, and the label of a joint step
reads as a pair of actions and as nothing else.
-/

namespace OmegaCheck

namespace Text

theorem not_isBlank_of_isNumeric {c : Char} (hc : isNumeric c = true) : ¬ isBlank c = true := by
  unfold isNumeric at hc
  split at hc
  · exact not_isBlank_of_isDigit hc
  · exact CodeRanges.not_covers_of_apart (by decide +kernel) hc

theorem dropBlanks_eq_self {cs : List Char} (h : ∀ c ∈ cs, ¬ isBlank c = true) :
    dropBlanks cs = cs := by
  cases cs with
  | nil => rfl
  | cons c cs => rw [dropBlanks, List.dropWhile_cons_of_neg (h c List.mem_cons_self)]

theorem trimChars_eq_self {cs : List Char} (h : ∀ c ∈ cs, ¬ isBlank c = true) :
    trimChars cs = cs := by
  rw [trimChars, dropBlanks_eq_self h, dropBlanks_eq_self fun c hc => h c (List.mem_reverse.mp hc),
    List.reverse_reverse]

theorem mem_dropBlanks {c : Char} {cs : List Char} (hc : ¬ isBlank c = true) (h : c ∈ cs) :
    c ∈ dropBlanks cs := by
  rw [← List.takeWhile_append_dropWhile (p := isBlank) (l := cs), List.mem_append] at h
  exact h.resolve_left fun hmem => hc (List.all_eq_true.mp List.all_takeWhile c hmem)

theorem mem_trimChars {c : Char} {cs : List Char} (hc : ¬ isBlank c = true) (h : c ∈ cs) :
    c ∈ trimChars cs := by
  rw [trimChars, List.mem_reverse]
  exact mem_dropBlanks hc (List.mem_reverse.mpr (mem_dropBlanks hc h))

end Text

open Lexeme

section Identifiers

variable {name : String}

theorem not_isBlank_of_continuesWord {c : Char} (hc : continuesWord c = true) :
    ¬ Text.isBlank c = true := by
  rw [continuesWord, Bool.or_eq_true, Bool.or_eq_true, decide_eq_true_eq] at hc
  obtain (hc | hc) | rfl := hc
  · exact Text.not_isBlank_of_isLetter hc
  · exact Text.not_isBlank_of_isNumeric hc
  · decide

theorem head?_append_of_isIdentifier (hname : isIdentifier name = true) (cs : List Char) :
    (name.toList ++ cs).head? = name.toList.head? := by
  cases h : name.toList with
  | nil => simp [isIdentifier, h] at hname
  | cons c ds => rfl

end Identifiers

namespace Channel

theorem before?_eq_some {mark : Char} {name text : String} (hname : isIdentifier name = true)
    (hmark : continuesWord mark = false) (rest : List Char)
    (htext : text.toList = name.toList ++ mark :: rest) : before? mark text = some name := by
  have hmem : mark ∈ text.toList := by simp [htext]
  have hfront : text.toList.takeWhile (· ≠ mark) = name.toList := by
    rw [htext]
    refine takeWhile_append_of_stop (fun c hc => ?_) (by simp)
    rw [decide_eq_true_eq]
    rintro rfl
    exact not_mem_of_not_continuesWord hname hmark hc
  have htrim : Text.trimChars name.toList = name.toList :=
    Text.trimChars_eq_self fun c hc => not_isBlank_of_continuesWord (continuesWord_of_mem hname hc)
  rw [before?, if_pos hmem, hfront, htrim, String.ofList_toList]

theorem isFeasible_congr {m n : Memory} {text : String}
    (h : ∀ channel, source? text = some channel → m.get? channel = n.get? channel) :
    isFeasible m text = isFeasible n text := by
  unfold isFeasible
  cases hsource : source? text with
  | none => rfl
  | some channel => simp only [h channel hsource]

end Channel

namespace Action

variable {a b : Action} {m n : Memory}

/-- Only a receive has its mark. -/
theorem source?_text_eq_some_iff (ha : a.wellNamed = true) {channel : String} :
    Channel.source? a.text = some channel ↔ ∃ target, a = receive channel target := by
  have hnone : '?' ∉ a.text.toList → (∀ c x, a ≠ receive c x) →
      (Channel.source? a.text = some channel ↔ ∃ target, a = receive channel target) := by
    intro hmark hne
    simp [Channel.source?, Channel.before?, hmark, hne]
  cases a with
  | skip => exact hnone (by decide) (by simp)
  | assign name value =>
    exact hnone ((spelled_assignmentText ha).not_mem (by decide) (by decide)) (by simp)
  | atomic as =>
    have has : '?' ∉ (Text.separated "; " (as.map assignmentText)).toList :=
      (spelled_assignmentTexts ha).not_mem (by decide) (by decide)
    refine hnone ?_ (by simp)
    simp [text, has]
  | receive c x =>
    rw [wellNamed, Bool.and_eq_true] at ha
    have hsource : Channel.source? (receive c x).text = some c :=
      Channel.before?_eq_some ha.1 (by decide) x.toList (by simp [text])
    rw [hsource]
    simp
  | send c value =>
    rw [wellNamed, Bool.and_eq_true] at ha
    have hname : '?' ∉ c.toList := not_mem_of_not_continuesWord ha.1 (by decide)
    have hvalue : '?' ∉ value.text.toList :=
      (Expr.spelled_text ha.2).not_mem (by decide) (by decide)
    refine hnone ?_ (by simp)
    simp [text, hname, hvalue]

theorem isRendezvous_text_receive {c x : String} (hc : isIdentifier c = true) :
    Channel.isRendezvous (receive c x).text = isRendezvousChannel c := by
  simp only [Channel.isRendezvous, isRendezvousChannel, text, String.toList_append,
    List.append_assoc, head?_append_of_isIdentifier hc]

theorem isRendezvous_text_send {c : String} {value : Expr} (hc : isIdentifier c = true) :
    Channel.isRendezvous (send c value).text = isRendezvousChannel c := by
  simp only [Channel.isRendezvous, isRendezvousChannel, text, String.toList_append,
    List.append_assoc, head?_append_of_isIdentifier hc]

/-- A rendezvous action that seems to write to a channel is a send. -/
theorem sink?_text_eq_some_iff (ha : a.wellNamed = true)
    (hmark : Channel.isRendezvous a.text = true) {channel : String}
    (hchannel : isIdentifier channel = true) :
    Channel.sink? a.text = some channel ↔ ∃ value, a = send channel value := by
  cases a with
  | skip => exact absurd hmark (by decide)
  | atomic as => simp [Channel.isRendezvous, text] at hmark
  | receive c x =>
    rw [wellNamed, Bool.and_eq_true] at ha
    have hc : '!' ∉ c.toList := not_mem_of_not_continuesWord ha.1 (by decide)
    have hx : '!' ∉ x.toList := not_mem_of_not_continuesWord ha.2 (by decide)
    simp [Channel.sink?, Channel.before?, text, hc, hx]
  | send c value =>
    rw [wellNamed, Bool.and_eq_true] at ha
    have hsink : Channel.sink? (send c value).text = some c :=
      Channel.before?_eq_some ha.1 (by decide) value.text.toList (by simp [text])
    rw [hsink]
    simp
  | assign name value =>
    -- What stands in front of a mark in the value contains the sign of the assignment.
    refine ⟨fun hsink => ?_, by simp⟩
    have hname : '!' ∉ name.toList := by
      rw [wellNamed, assignmentWellNamed, Bool.and_eq_true] at ha
      exact not_mem_of_not_continuesWord ha.1 (by decide)
    have hcolon : ':' ∈ (assign name value).text.toList.takeWhile (· ≠ '!') := by
      have hfront : ∀ c ∈ name.toList ++ " := ".toList, decide (c ≠ '!') = true := by
        intro c hc
        rw [decide_eq_true_eq]
        rintro rfl
        simp [hname] at hc
      have htext : (assign name value).text.toList =
          (name.toList ++ " := ".toList) ++ value.text.toList := by
        simp [text, assignmentText]
      rw [htext, List.takeWhile_append_of_pos hfront]
      simp
    rw [Channel.sink?, Channel.before?] at hsink
    split at hsink
    · have hmem := Text.mem_trimChars (by decide) hcolon
      rw [Option.some.injEq] at hsink
      rw [← String.toList_ofList (l := Text.trimChars _), hsink] at hmem
      exact absurd hmem (not_mem_of_not_continuesWord hchannel (by decide))
    · cases hsink

theorem isFeasible_text_iff (ha : a.wellNamed = true)
    (hmark : Channel.isRendezvous a.text = false) :
    Channel.isFeasible m a.text = true ↔
      ∀ c x, a = receive c x → ∃ v vs, m.get? c = some (.queue (v :: vs)) := by
  rw [Channel.isFeasible, hmark, Bool.false_and, if_neg Bool.false_ne_true]
  cases hsource : Channel.source? a.text with
  | none =>
    refine ⟨fun _ c x hreceive => ?_, fun _ => rfl⟩
    rw [(source?_text_eq_some_iff ha).mpr ⟨x, hreceive⟩] at hsource
    cases hsource
  | some c =>
    obtain ⟨x, rfl⟩ := (source?_text_eq_some_iff ha).mp hsource
    constructor
    · rintro hqueue c' x' ⟨⟩
      simp only at hqueue
      split at hqueue
      · next v vs hget => exact ⟨v, vs, hget⟩
      · cases hqueue
    · intro h
      obtain ⟨v, vs, hget⟩ := h c x rfl
      simp only [hget]

/-- Two texts are a handshake when they are a receive and a send on one rendezvous channel. -/
theorem isHandshake_text_iff (ha : a.wellNamed = true) (hb : b.wellNamed = true) :
    Channel.isHandshake a.text b.text = true ↔
      ∃ c x value, a = receive c x ∧ b = send c value ∧ isRendezvousChannel c = true := by
  simp only [Channel.isHandshake, Bool.and_eq_true, decide_eq_true_eq]
  constructor
  · rintro ⟨⟨⟨⟨hmark, hmark'⟩, hsome⟩, heq⟩, _⟩
    obtain ⟨c, hsource⟩ := Option.isSome_iff_exists.mp hsome
    obtain ⟨x, rfl⟩ := (source?_text_eq_some_iff ha).mp hsource
    rw [wellNamed, Bool.and_eq_true] at ha
    rw [isRendezvous_text_receive ha.1] at hmark
    obtain ⟨value, rfl⟩ := (sink?_text_eq_some_iff hb hmark' ha.1).mp (heq.symm.trans hsource)
    exact ⟨c, x, value, rfl, rfl, hmark⟩
  · rintro ⟨c, x, value, rfl, rfl, hc⟩
    have hsource : Channel.source? (receive c x).text = some c :=
      (source?_text_eq_some_iff ha).mpr ⟨x, rfl⟩
    have hnone : Channel.source? (send c value).text = none := by
      refine Option.eq_none_iff_forall_ne_some.mpr fun d hd => ?_
      obtain ⟨y, hy⟩ := (source?_text_eq_some_iff hb).mp hd
      cases hy
    rw [wellNamed, Bool.and_eq_true] at ha
    have hmark : Channel.isRendezvous (send c value).text = true := by
      rwa [isRendezvous_text_send ha.1]
    have hsink : Channel.sink? (send c value).text = some c :=
      (sink?_text_eq_some_iff hb hmark ha.1).mpr ⟨value, rfl⟩
    rw [isRendezvous_text_receive ha.1, hsource, hsink, hnone]
    exact ⟨⟨⟨⟨hc, hmark⟩, rfl⟩, rfl⟩, rfl⟩

end Action

open OmegaCheck.Parser

theorem Prints.trails_bar {s : String} {ts : List Token} (h : Prints s ts) :
    Trails ("|" ++ s) (.bar :: ts) where
  boundary _ := by
    simpa using boundary_cons (c := '|') (by decide)
  lexes {rest us} hrest hus := by
    have hsign : Lexes ('|' :: (s.toList ++ rest)) (.bar :: (ts ++ us)) := by
      refine Lexes.sign (by decide) rfl (fun d hd => ⟨?_, by simp⟩) (h.lexes hrest hus)
      have hopens := (h.opens.append rest).of_mem_head? hd
      have hbar : d ≠ '|' := by
        rintro rfl
        exact absurd hopens (by decide)
      simp [Token.ofTwo?, hbar]
    simpa using hsign

theorem Parser.whole_ne_ok {α : Type} {reader : (ts : List Token) → Reading α ts.length}
    {source : String} {ts rest : List Token} {v : α} (hlex : Lexes source.toList ts)
    (h : Yields (reader ts) v rest) (hrest : rest ≠ []) (u : α) : whole reader source ≠ .ok u := by
  obtain ⟨lexemes, hlexemes, rfl⟩ := hlex.lex
  obtain ⟨_, h⟩ := h
  rw [whole, bind_of_eq_ok hlexemes, bind_of_eq_ok h, if_neg (by simpa using hrest)]
  rintro ⟨⟩

namespace Action

variable {a b : Action}

/-- The text of a joint step. -/
def pairText (a b : Action) : String := a.text ++ "|" ++ b.text

theorem accepted_iff : a.accepted = true ↔ a.wellNamed = true ∧ a.filled = true :=
  Bool.and_eq_true_iff

theorem yields_action_pair (ha : a.accepted = true) (ts : List Token) :
    Yields (action (a.tokens ++ .bar :: ts)) a.norm (.bar :: ts) :=
  a.yields_action (accepted_iff.mp ha).2 (noOperator_cons levels (by simp))

section

variable (ha : a.accepted = true) (hb : b.accepted = true)
include ha hb

theorem prints_pairText : Prints (pairText a b) (a.tokens ++ .bar :: b.tokens) := by
  rw [pairText, String.append_assoc]
  have htrails := (b.prints_text (accepted_iff.mp hb).1).trails_bar
  exact (a.prints_text (accepted_iff.mp ha).1).append htrails

theorem parse_pairText_ne_ok (c : Action) : Action.parse (pairText a b) ≠ .ok c :=
  whole_ne_ok (prints_pairText ha hb).lexes_all (yields_action_pair ha _) (by simp) c

theorem parsePair_pairText : parsePair (pairText a b) = .ok (a.norm, b.norm) := by
  obtain ⟨_, hfirst⟩ := yields_action_pair ha b.tokens
  obtain ⟨_, hsign⟩ := yields_expect .bar b.tokens
  have hread := b.yields_action (accepted_iff.mp hb).2 (noOperator_nil levels)
  rw [List.append_nil] at hread
  obtain ⟨_, hsecond⟩ := hread
  refine whole_eq_ok (prints_pairText ha hb).lexes_all ⟨?_, ?_⟩
  · simp only [List.length_nil, List.length_append, List.length_cons]
    omega
  · rw [handshake, bind_of_eq_ok hfirst, bind_of_eq_ok hsign, bind_of_eq_ok hsecond]
    rfl

theorem standard_effect_pairText (m : Memory) :
    Evaluators.standard.effect m (pairText a b) = Evaluator.exchange m a.norm b.norm := by
  have hblank : ¬ Evaluator.isBlankText (pairText a b) = true :=
    (prints_pairText ha hb).opens.not_isBlank
  cases hparse : Action.parse (pairText a b) with
  | ok c => exact absurd hparse (parse_pairText_ne_ok ha hb c)
  | error e =>
    simp [Evaluators.effect, Evaluators.standard, Evaluator.assignments, Evaluator.channels, hblank,
      hparse, Except.toOption, parsePair_pairText ha hb]

end

/-- A joint step, in whichever order its halves are named, binds the target to the value sent. -/
theorem effect_handshakeLabel {c x : String} {e : Expr} (hreceive : (receive c x).accepted = true)
    (hsend : (send c e).accepted = true) (i j : Nat) (m : Memory) :
    Evaluators.standard.effect m (Channel.handshakeLabel i (receive c x).text j (send c e).text) =
      (do let v ← e.norm.eval m; return m.set x (.int v)) := by
  rw [Channel.handshakeLabel]
  split
  · refine (standard_effect_pairText hreceive hsend m).trans ?_
    simp [Evaluator.exchange, norm, mapExprs]
  · refine (standard_effect_pairText hsend hreceive m).trans ?_
    simp [Evaluator.exchange, norm, mapExprs]

theorem agree_effect_handshakeLabel {c x : String} {e : Expr}
    (hreceive : (receive c x).accepted = true) (hsend : (send c e).accepted = true) (i j : Nat)
    (m : Memory) :
    Agree (Evaluators.standard.effect m
        (Channel.handshakeLabel i (receive c x).text j (send c e).text))
      (do let v ← e.eval m; return m.set x (.int v)) := by
  rw [effect_handshakeLabel hreceive hsend]
  exact (e.agree_eval_norm m).bind fun v => .ok _

end Action

end OmegaCheck
