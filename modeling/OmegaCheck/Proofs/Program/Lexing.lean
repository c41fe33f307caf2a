import OmegaCheck.Program.Parser

/-!
# Cutting printed text into tokens

Text that is put together from spellings of tokens is cut back into these tokens, as long as no
spelling runs into the next one. Words and numbers end at the first character that cannot continue
a word, so such a character has to follow them; a sign of one character must not be completed to a
sign of two.
-/

namespace OmegaCheck

namespace Text

theorem isAlpha_iff {c : Char} : c.isAlpha = true ↔
    (65 ≤ c.toNat ∧ c.toNat ≤ 90) ∨ (97 ≤ c.toNat ∧ c.toNat ≤ 122) := by
  change (decide (c.val ≥ 'A'.val ∧ c.val ≤ 'Z'.val) ||
    (decide (c.val ≥ 'a'.val) && decide (c.val ≤ 'z'.val))) = true ↔ _
  simp [UInt32.le_iff_toNat_le]

theorem isDigit_iff {c : Char} : c.isDigit = true ↔ 48 ≤ c.toNat ∧ c.toNat ≤ 57 := by
  simp [Char.isDigit, UInt32.le_iff_toNat_le]

theorem CodeRanges.covers_iff {ranges : CodeRanges} {c : Char} :
    ranges.covers c = true ↔ ∃ r ∈ ranges, r.1 ≤ c.toNat ∧ c.toNat ≤ r.2 := by
  simp [covers]

theorem CodeRanges.not_covers_of_apart {xs ys : CodeRanges} {c : Char}
    (hapart : ∀ r ∈ xs, ∀ s ∈ ys, r.2 < s.1 ∨ s.2 < r.1)
    (hc : xs.covers c = true) : ¬ ys.covers c = true := by
  rw [covers_iff] at hc ⊢
  rintro ⟨s, hs, hin⟩
  obtain ⟨r, hr, hlow, hhigh⟩ := hc
  have := hapart r hr s hs
  omega

theorem not_isBlank_of_isDigit {c : Char} (hc : c.isDigit = true) : ¬ isBlank c = true := by
  rw [isDigit_iff] at hc
  simp [isBlank, CodeRanges.covers_iff, blankRanges]
  omega

theorem not_isBlank_of_isLetter {c : Char} (hc : isLetter c = true) : ¬ isBlank c = true := by
  unfold isLetter at hc
  split at hc
  · rw [isAlpha_iff] at hc
    simp [isBlank, CodeRanges.covers_iff, blankRanges]
    omega
  · exact CodeRanges.not_covers_of_apart (by decide +kernel) hc

theorem not_isDigit_of_isLetter {c : Char} (hc : isLetter c = true) : ¬ c.isDigit = true := by
  rw [isDigit_iff]
  unfold isLetter at hc
  split at hc
  · rw [isAlpha_iff] at hc
    omega
  · omega

end Text

namespace Lexeme

theorem not_isBlank_of_startsWord {c : Char} (hc : startsWord c = true) :
    ¬ Text.isBlank c = true := by
  rw [startsWord, Bool.or_eq_true, decide_eq_true_eq] at hc
  rcases hc with hc | rfl
  · exact Text.not_isBlank_of_isLetter hc
  · decide

theorem not_isDigit_of_startsWord {c : Char} (hc : startsWord c = true) : ¬ c.isDigit = true := by
  rw [startsWord, Bool.or_eq_true, decide_eq_true_eq] at hc
  rcases hc with hc | rfl
  · exact Text.not_isDigit_of_isLetter hc
  · decide

theorem continuesWord_of_isDigit {c : Char} (hc : c.isDigit = true) : continuesWord c = true := by
  have hnumeric : Text.isNumeric c = true := by
    have := Text.isDigit_iff.1 hc
    rw [Text.isNumeric, if_pos (by omega)]
    exact hc
  simp [continuesWord, hnumeric]

/-- Nothing here continues a word or a number that stands in front. -/
def Boundary (rest : List Char) : Prop := ∀ c ∈ rest.head?, ¬ continuesWord c = true

theorem boundary_nil : Boundary [] := by
  intro c hc
  cases hc

theorem boundary_cons {c : Char} {rest : List Char} (hc : continuesWord c = false) :
    Boundary (c :: rest) := by
  intro d hd
  cases hd
  simp [hc]

theorem takeWhile_append_of_stop {p : Char → Bool} {cs rest : List Char}
    (hcs : ∀ c ∈ cs, p c = true) (hrest : ∀ c ∈ rest.head?, ¬ p c = true) :
    (cs ++ rest).takeWhile p = cs := by
  rw [List.takeWhile_append_of_pos hcs]
  cases rest with
  | nil => simp
  | cons c rest => simp [hrest c rfl]

theorem lexFrom_of_scan {offset start n : Nat} {cs rest : List Char} {c : Char} {t : Token}
    (hgap : skipGap false offset cs = (start, c :: rest)) (hscan : scan c rest = .ok (t, n)) :
    lexFrom offset cs =
      (lexFrom (start + byteLength (c :: rest.take n)) (rest.drop n)).map
        (⟨t, start, start + byteLength (c :: rest.take n)⟩ :: ·) := by
  rw [lexFrom]
  split
  · next h => simp [hgap] at h
  · next h =>
    rw [hgap] at h
    cases h
    rw [hscan]

theorem lexFrom_of_end {offset start : Nat} {cs : List Char}
    (h : skipGap false offset cs = (start, [])) : lexFrom offset cs = .ok [] := by
  rw [lexFrom]
  split
  · rfl
  · next hgap => simp [h] at hgap

/-- The text is cut into these tokens, wherever in a longer text it begins. -/
def Lexes (cs : List Char) (ts : List Token) : Prop :=
  ∀ offset, ∃ lexemes, lexFrom offset cs = .ok lexemes ∧ lexemes.map token = ts

theorem lexes_nil : Lexes [] [] := by
  intro offset
  exact ⟨[], lexFrom_of_end rfl, rfl⟩

theorem Lexes.of_scan {c : Char} {rest : List Char} {t : Token} {n : Nat} {ts : List Token}
    (hblank : ¬ Text.isBlank c = true) (hslash : c = '/' → rest.head? ≠ some '/')
    (hscan : scan c rest = .ok (t, n)) (hrest : Lexes (rest.drop n) ts) :
    Lexes (c :: rest) (t :: ts) := by
  intro offset
  have hgap : skipGap false offset (c :: rest) = (offset, c :: rest) := by
    rw [skipGap, if_neg Bool.false_ne_true, if_neg hblank, if_neg (by simpa using hslash)]
  obtain ⟨lexemes, hlex, htokens⟩ := hrest (offset + byteLength (c :: rest.take n))
  rw [lexFrom_of_scan hgap hscan, hlex]
  exact ⟨_, rfl, by simp [htokens]⟩

theorem Lexes.blank {rest : List Char} {ts : List Token} (hrest : Lexes rest ts) :
    Lexes (' ' :: rest) ts := by
  intro offset
  obtain ⟨lexemes, hlex, htokens⟩ := hrest (offset + ' '.utf8Size)
  refine ⟨lexemes, ?_, htokens⟩
  have hgap : skipGap false offset (' ' :: rest) = skipGap false (offset + ' '.utf8Size) rest := by
    have hblank : Text.isBlank ' ' = true := by decide
    simp [skipGap, hblank]
  rw [← hlex, lexFrom, lexFrom, hgap]

theorem Lexes.word {c : Char} {cs rest : List Char} {ts : List Token}
    (hc : startsWord c = true) (hcs : ∀ d ∈ cs, continuesWord d = true) (hrest : Boundary rest)
    (h : Lexes rest ts) :
    Lexes (c :: cs ++ rest) (Token.ofWord (String.ofList (c :: cs)) :: ts) := by
  have hscan : scan c (cs ++ rest) = .ok (Token.ofWord (String.ofList (c :: cs)), cs.length) := by
    rw [scan, if_neg (not_isDigit_of_startsWord hc), if_pos hc,
      takeWhile_append_of_stop hcs hrest]
    rfl
  apply Lexes.of_scan (not_isBlank_of_startsWord hc) _ hscan
  · rwa [List.drop_left]
  · rintro rfl
    exact absurd hc (by decide)

theorem Lexes.number {n : Nat} {rest : List Char} {ts : List Token} (hn : n < literalLimit)
    (hrest : Boundary rest) (h : Lexes rest ts) : Lexes (n.repr.toList ++ rest) (.int n :: ts) := by
  have hdigits : ∀ d ∈ Nat.toDigits 10 n, d.isDigit = true := fun d hd =>
    Nat.isDigit_of_mem_toDigits (by decide) (by decide) hd
  have hvalue := Nat.ofDigitChars_ten_toDigits (n := n)
  rw [Nat.toList_repr]
  cases htext : Nat.toDigits 10 n with
  | nil => exact absurd htext Nat.toDigits_ne_nil
  | cons c cs =>
    rw [htext] at hdigits hvalue
    have hc := hdigits c List.mem_cons_self
    have hstop : ∀ d ∈ rest.head?, ¬ d.isDigit = true := fun d hd hdigit =>
      hrest d hd (continuesWord_of_isDigit hdigit)
    have hscan : scan c (cs ++ rest) = .ok (.int n, cs.length) := by
      rw [scan, if_pos hc,
        takeWhile_append_of_stop (fun d hd => hdigits d (List.mem_cons_of_mem c hd)) hstop]
      simp only [hvalue, if_pos hn]
      rfl
    apply Lexes.of_scan (Text.not_isBlank_of_isDigit hc) _ hscan
    · rwa [List.drop_left]
    · rintro rfl
      exact absurd hc (by decide)

/-- Characters that begin no word, number or gap. -/
def isSign (c : Char) : Bool := !(Text.isBlank c || c.isDigit || startsWord c)

theorem isSign_iff {c : Char} :
    isSign c = true ↔ ¬ Text.isBlank c = true ∧ ¬ c.isDigit = true ∧ ¬ startsWord c = true := by
  simp [isSign, and_assoc]

theorem Lexes.sign {c : Char} {rest : List Char} {t : Token} {ts : List Token}
    (hc : isSign c = true) (hone : Token.ofOne? c = some t)
    (htwo : ∀ d ∈ rest.head?, Token.ofTwo? c d = none ∧ (c = '/' → d ≠ '/'))
    (h : Lexes rest ts) : Lexes (c :: rest) (t :: ts) := by
  obtain ⟨hblank, hdigit, hword⟩ := isSign_iff.1 hc
  have hnone : rest.head?.bind (Token.ofTwo? c) = none := by
    rw [Option.bind_eq_none_iff]
    exact fun d hd => (htwo d hd).1
  have hscan : scan c rest = .ok (t, 0) := by
    rw [scan, if_neg hdigit, if_neg hword, hnone, hone]
  apply Lexes.of_scan hblank _ hscan h
  intro hslash hhead
  exact (htwo '/' hhead).2 hslash rfl

theorem Lexes.twoSigns {c d : Char} {rest : List Char} {t : Token} {ts : List Token}
    (hc : isSign c = true) (htwo : Token.ofTwo? c d = some t) (h : Lexes rest ts) :
    Lexes (c :: d :: rest) (t :: ts) := by
  obtain ⟨hblank, hdigit, hword⟩ := isSign_iff.1 hc
  have hscan : scan c (d :: rest) = .ok (t, 1) := by
    rw [scan, if_neg hdigit, if_neg hword, List.head?_cons, Option.bind_some, htwo]
  apply Lexes.of_scan hblank _ hscan h
  rintro rfl
  simp [Token.ofTwo?] at htwo

theorem lexes_op (o : BinOp) {rest : List Char} {ts : List Token} (h : Lexes rest ts) :
    Lexes (o.symbol.toList ++ ' ' :: rest) (.op o :: ts) := by
  cases o
  case or | and | eq | ne | le | ge => exact Lexes.twoSigns (by decide) rfl h.blank
  all_goals exact Lexes.sign (by decide) rfl (fun d hd => by cases hd; decide) h.blank

theorem Lexes.lex {source : String} {ts : List Token} (h : Lexes source.toList ts) :
    ∃ lexemes, lex source = .ok lexemes ∧ lexemes.map token = ts := h 0

theorem Lexes.functional {cs : List Char} {ts us : List Token} (ht : Lexes cs ts)
    (hu : Lexes cs us) : ts = us := by
  obtain ⟨lexemes, hlex, rfl⟩ := ht 0
  obtain ⟨lexemes', hlex', rfl⟩ := hu 0
  cases hlex.symm.trans hlex'
  rfl

end Lexeme

end OmegaCheck
