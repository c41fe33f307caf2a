import OmegaCheck.Proofs.Program.Slicing

/-!
# Lexemes cover the text

The lexemes of a text stand one behind the other, on whole characters, and leave out only blanks and
comments. Each of them is read from its own part of the text as it is read from the whole: no token
depends on what stands around it.
-/

namespace OmegaCheck

namespace Lexeme

/-- Between the offsets there are only blanks and comments, in front of what follows. -/
def IsGap (source : String) (start stop : Nat) : Prop :=
  ∃ gap rest, slice? source start stop = some gap ∧
    slice? source stop source.utf8ByteSize = some rest ∧
    Passes (gap.toList ++ rest.toList) rest.toList

/-- The parts of a text from an offset on that no lexeme takes up. -/
def gaps (offset size : Nat) (lexemes : List Lexeme) : List (Nat × Nat) :=
  (offset :: lexemes.map stop).zip (lexemes.map start ++ [size])

/-- The lexeme is the only one in its own part of the text. -/
def StandsAlone (source : String) (x : Lexeme) : Prop :=
  ∃ text, slice? source x.start x.stop = some text ∧
    lex text = .ok [⟨x.token, 0, text.utf8ByteSize⟩]

/-- The lexemes and the gaps between them make up the text from an offset on. -/
structure Covers (source : String) (offset : Nat) (lexemes : List Lexeme) : Prop where
  behind : ∀ p ∈ marked source.utf8ByteSize lexemes, offset ≤ p.2
  increasing : (marked source.utf8ByteSize lexemes).Pairwise fun p q => p.2 < q.2
  boundary : ∀ p ∈ marked source.utf8ByteSize lexemes, (String.Pos.Raw.mk p.2).IsValid source
  gap : ∀ g ∈ gaps offset source.utf8ByteSize lexemes, IsGap source g.1 g.2
  alone : ∀ x ∈ lexemes, StandsAlone source x

section Words

variable {c : Char} {cs word rest : List Char} {t : Token}

/-- A token does not depend on what follows it. -/
theorem Begins.alone (h : Begins t word rest) : Begins t word [] := by
  cases h with
  | number hne hdigits hstop hlimit => exact .number hne hdigits (by simp) hlimit
  | word hc hcs hstop => exact .word hc hcs boundary_nil
  | two hc htwo => exact .two hc htwo
  | one hc htwo hone => exact .one hc (by simp) hone

theorem Begins.noGap (h : Begins t word rest) : NoGap (word ++ rest) := by
  cases h with
  | number hne hdigits hstop hlimit =>
    obtain ⟨c, tail, rfl⟩ := List.exists_cons_of_ne_nil hne
    have hc := hdigits c List.mem_cons_self
    rintro _ _ ⟨⟩
    refine ⟨Text.not_isBlank_of_isDigit hc, ?_⟩
    rintro rfl
    exact absurd hc (by decide)
  | word hc hcs hstop =>
    rintro _ _ ⟨⟩
    refine ⟨not_isBlank_of_startsWord hc, ?_⟩
    rintro rfl
    exact absurd hc (by decide)
  | two hc htwo =>
    rintro _ _ ⟨⟩
    refine ⟨(isSign_iff.mp hc).1, ?_⟩
    rintro rfl
    simp [Token.ofTwo?] at htwo
  | one hc htwo hone =>
    rintro _ _ ⟨⟩
    exact ⟨(isSign_iff.mp hc).1, fun hslash hhead => (htwo '/' hhead).2 hslash rfl⟩

theorem scan_of_begins (h : Begins t (c :: cs) rest) :
    scan c (cs ++ rest) = .ok (t, cs.length) := by
  cases h with
  | number hne hdigits hstop hlimit =>
    obtain ⟨hc, hcs⟩ := List.forall_mem_cons.mp hdigits
    rw [scan, if_pos hc, takeWhile_append_of_stop hcs hstop]
    exact if_pos hlimit
  | word hc hcs hstop =>
    rw [scan, if_neg (not_isDigit_of_startsWord hc), if_pos hc, takeWhile_append_of_stop hcs hstop]
    rfl
  | two hc htwo =>
    obtain ⟨_, hdigit, hword⟩ := isSign_iff.mp hc
    rw [scan, if_neg hdigit, if_neg hword, List.singleton_append, List.head?_cons, Option.bind_some,
      htwo]
    rfl
  | one hc htwo hone =>
    obtain ⟨_, hdigit, hword⟩ := isSign_iff.mp hc
    have hnone : rest.head?.bind (Token.ofTwo? c) = none :=
      Option.bind_eq_none_iff.mpr fun d hd => (htwo d hd).1
    rw [scan, if_neg hdigit, if_neg hword, List.nil_append, hnone, hone]
    rfl

theorem skipGap_of_noGap (h : NoGap (c :: rest)) (offset : Nat) :
    skipGap false offset (c :: rest) = (offset, c :: rest) := by
  obtain ⟨hblank, hslash⟩ := h c rest rfl
  rw [skipGap, if_neg Bool.false_ne_true, if_neg hblank, if_neg (by simpa using hslash)]

theorem Begins.lex_eq (h : Begins t (c :: cs) rest) :
    lex (String.ofList (c :: cs)) = .ok [⟨t, 0, (String.ofList (c :: cs)).utf8ByteSize⟩] := by
  have hgap := h.alone.noGap
  have hscan := scan_of_begins h.alone
  rw [List.append_nil] at hgap hscan
  rw [lex, String.toList_ofList, lexFrom_of_scan (skipGap_of_noGap hgap 0) hscan, List.take_length,
    List.drop_length, lexFrom_of_end rfl, ← byteLength_eq_utf8ByteSize, Nat.zero_add]
  rfl

end Words

section Texts

variable {source : String} {offset start : Nat} {cs rest : List Char}

theorem Covers.nil (h : ReadsFrom source start []) (hle : offset ≤ start)
    (hgap : IsGap source offset start) : Covers source offset [] := by
  obtain rfl : start = source.utf8ByteSize := h.end_eq
  constructor
  case behind => simpa [marked] using hle
  case increasing => exact List.pairwise_singleton _ _
  case boundary => simpa [marked] using h.isValid
  case gap => simpa [gaps] using hgap
  case alone => simp

theorem Covers.cons {x : Lexeme} {lexemes : List Lexeme} (h : ReadsFrom source x.start cs)
    (hle : offset ≤ x.start) (hlt : x.start < x.stop) (hgap : IsGap source offset x.start)
    (halone : StandsAlone source x) (hmore : Covers source x.stop lexemes) :
    Covers source offset (x :: lexemes) := by
  have hmarked : marked source.utf8ByteSize (x :: lexemes) =
      (some x.token, x.start) :: marked source.utf8ByteSize lexemes := rfl
  have hgaps : gaps offset source.utf8ByteSize (x :: lexemes) =
      (offset, x.start) :: gaps x.stop source.utf8ByteSize lexemes := rfl
  have hbehind : ∀ p ∈ marked source.utf8ByteSize lexemes, x.start < p.2 :=
    fun p hp => Nat.lt_of_lt_of_le hlt (hmore.behind p hp)
  constructor
  case behind =>
    rw [hmarked]
    exact List.forall_mem_cons.mpr ⟨hle, fun p hp => Nat.le_trans hle (Nat.le_of_lt (hbehind p hp))⟩
  case increasing =>
    rw [hmarked]
    exact List.pairwise_cons.mpr ⟨hbehind, hmore.increasing⟩
  case boundary =>
    rw [hmarked]
    exact List.forall_mem_cons.mpr ⟨h.isValid, hmore.boundary⟩
  case gap =>
    rw [hgaps]
    exact List.forall_mem_cons.mpr ⟨hgap, hmore.gap⟩
  case alone => exact List.forall_mem_cons.mpr ⟨halone, hmore.alone⟩

theorem isGap_of_skipGap (h : ReadsFrom source offset cs)
    (hgap : skipGap false offset cs = (start, rest)) :
    offset ≤ start ∧ IsGap source offset start := by
  obtain ⟨hpasses, _, hlength⟩ := gap_of_skipGap hgap
  obtain ⟨gap, rfl⟩ := hpasses.exists_append
  obtain rfl : start = offset + byteLength gap := by
    rw [byteLength_append] at hlength
    omega
  refine ⟨Nat.le_add_right _ _, String.ofList gap, String.ofList rest, h.slice?_eq,
    h.drop.slice?_end, ?_⟩
  rwa [String.toList_ofList, String.toList_ofList]

theorem covers_of_lexFrom {lexemes : List Lexeme} (h : ReadsFrom source offset cs)
    (hlex : lexFrom offset cs = .ok lexemes) : Covers source offset lexemes := by
  fun_induction lexFrom offset cs generalizing lexemes with
  | case1 offset cs start hgap =>
    cases hlex
    obtain ⟨hle, hisGap⟩ := isGap_of_skipGap h hgap
    exact .nil (h.gap hgap).2 hle hisGap
  | case2 offset cs start c rest hgap fault hscan => cases hlex
  | case3 offset cs start c rest hgap t n hscan stop =>
    rename_i ih
    cases hmore : lexFrom stop (rest.drop n) with
    | error e =>
      rw [hmore] at hlex
      cases hlex
    | ok more =>
      rw [hmore] at hlex
      cases hlex
      obtain ⟨_, hbegins, _⟩ := first_of_skipGap hgap hscan
      obtain ⟨hle, hisGap⟩ := isGap_of_skipGap h hgap
      have hrest := (h.gap hgap).2
      have hsplit : ReadsFrom source start (c :: rest.take n ++ rest.drop n) := by
        rwa [List.cons_append, List.take_append_drop]
      have hlt : start < stop :=
        Nat.lt_add_of_pos_right (Nat.add_pos_left c.utf8Size_pos _)
      exact .cons hrest hle hlt hisGap ⟨_, hsplit.slice?_eq, hbegins.lex_eq⟩ (ih hsplit.drop hmore)

/-- Every text is read to its end by slices of whole characters, and the lexemes cover it if there
are any. -/
theorem lex_covers (source : String) :
    tokensFrom? source 0 = some ((lex source).map (marked source.utf8ByteSize)) ∧
      ∀ lexemes, lex source = .ok lexemes → Covers source 0 lexemes :=
  ⟨(ReadsFrom.start source).tokensFrom?_eq, fun _ => covers_of_lexFrom (.start source)⟩

/-- A slash that divides, one that does not, and characters of two bytes. -/
theorem lex_quotient_covers :
    lex "é/2// ü" = .ok [⟨.ident "é", 0, 2⟩, ⟨.op .div, 2, 3⟩, ⟨.int 2, 3, 4⟩] ∧
      Covers "é/2// ü" 0 [⟨.ident "é", 0, 2⟩, ⟨.op .div, 2, 3⟩, ⟨.int 2, 3, 4⟩] := by
  have hname : scan 'é' ['/', '2', '/', '/', ' ', 'ü'] = .ok (.ident "é", 0) := rfl
  have hsign : scan '/' ['2', '/', '/', ' ', 'ü'] = .ok (.op .div, 0) := rfl
  have hnumber : scan '2' ['/', '/', ' ', 'ü'] = .ok (.int 2, 0) := rfl
  have hlex : lex "é/2// ü" = .ok [⟨.ident "é", 0, 2⟩, ⟨.op .div, 2, 3⟩, ⟨.int 2, 3, 4⟩] := by
    have htext : "é/2// ü".toList = ['é', '/', '2', '/', '/', ' ', 'ü'] := by decide
    rw [lex, htext, lexFrom_of_scan rfl hname, lexFrom_of_scan rfl hsign,
      lexFrom_of_scan rfl hnumber, lexFrom_of_end rfl]
    rfl
  exact ⟨hlex, (lex_covers _).2 _ hlex⟩

end Texts

end Lexeme

end OmegaCheck
