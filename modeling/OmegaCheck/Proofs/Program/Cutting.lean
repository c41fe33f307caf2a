import OmegaCheck.Proofs.Program.Acceptance

/-!
# How texts are cut

The rules by which a text is cut into tokens, as relations: what may stand between tokens, how far a
token reaches, and where no token can be found. The lexemes of a text follow these rules, and if
there are none then because the rules lead to a place where they end. Conversely every sequence of
tokens that can be spelled has a text.
-/

namespace OmegaCheck

namespace Lexeme

variable {cs mid rest word : List Char} {ts : List Token} {t : Token} {offset : Nat}

/-- The second text is what is left of the first behind blanks and comments. A comment runs to the
end of its line. -/
inductive Passes : List Char → List Char → Prop
  | refl (cs : List Char) : Passes cs cs
  | blank {c : Char} {cs rest : List Char} (hc : Text.isBlank c = true) (h : Passes cs rest) :
      Passes (c :: cs) rest
  | comment {line cs rest : List Char} (hline : '\n' ∉ line) (hend : ∀ c ∈ cs.head?, c = '\n')
      (h : Passes cs rest) : Passes ('/' :: '/' :: (line ++ cs)) rest

/-- The text begins neither with a blank nor with a comment. -/
def NoGap (cs : List Char) : Prop :=
  ∀ c rest, cs = c :: rest → ¬ Text.isBlank c = true ∧ (c = '/' → rest.head? ≠ some '/')

/-- A token at the front of a text: `word` spells it, and what follows does not go on with it. -/
inductive Begins : Token → List Char → List Char → Prop
  | number {digits rest : List Char} (hne : digits ≠ []) (hdigits : ∀ c ∈ digits, c.isDigit = true)
      (hstop : ∀ c ∈ rest.head?, ¬ c.isDigit = true)
      (hlimit : Nat.ofDigitChars 10 digits 0 < literalLimit) :
      Begins (.int (Nat.ofDigitChars 10 digits 0)) digits rest
  | word {c : Char} {cs rest : List Char} (hc : startsWord c = true)
      (hcs : ∀ d ∈ cs, continuesWord d = true) (hstop : Boundary rest) :
      Begins (Token.ofWord (String.ofList (c :: cs))) (c :: cs) rest
  | two {c d : Char} {rest : List Char} {t : Token} (hc : isSign c = true)
      (htwo : Token.ofTwo? c d = some t) : Begins t [c, d] rest
  | one {c : Char} {rest : List Char} {t : Token} (hc : isSign c = true)
      (htwo : ∀ d ∈ rest.head?, Token.ofTwo? c d = none ∧ (c = '/' → d ≠ '/'))
      (hone : Token.ofOne? c = some t) : Begins t [c] rest

/-- No token stands at the front of the text: there is a character that begins none, or a number
that is too large. -/
inductive Unreadable : List Char → Prop
  | character {c : Char} {cs : List Char} (hc : isSign c = true)
      (htwo : ∀ d ∈ cs.head?, Token.ofTwo? c d = none) (hone : Token.ofOne? c = none) :
      Unreadable (c :: cs)
  | number {digits rest : List Char} (hne : digits ≠ []) (hdigits : ∀ c ∈ digits, c.isDigit = true)
      (hstop : ∀ c ∈ rest.head?, ¬ c.isDigit = true)
      (hlimit : literalLimit ≤ Nat.ofDigitChars 10 digits 0) : Unreadable (digits ++ rest)

/-- The tokens from the beginning of a text up to what is left of it. -/
inductive Cut : List Char → List Token → List Char → Prop
  | gap {cs rest : List Char} (h : Passes cs rest) : Cut cs [] rest
  | token {cs word mid rest : List Char} {t : Token} {ts : List Token}
      (hgap : Passes cs (word ++ mid)) (ht : Begins t word mid) (h : Cut mid ts rest) :
      Cut cs (t :: ts) rest

theorem Passes.exists_append (h : Passes cs rest) : ∃ front, cs = front ++ rest := by
  induction h with
  | refl cs => exact ⟨[], rfl⟩
  | @blank c _ _ hc _ ih =>
    obtain ⟨front, rfl⟩ := ih
    exact ⟨c :: front, rfl⟩
  | @comment line _ _ hline hend _ ih =>
    obtain ⟨front, rfl⟩ := ih
    exact ⟨'/' :: '/' :: (line ++ front), by simp⟩

theorem Cut.exists_append (h : Cut cs ts rest) : ∃ front, cs = front ++ rest := by
  induction h with
  | gap h => exact h.exists_append
  | @token _ word _ _ _ _ hgap ht h ih =>
    obtain ⟨front, rfl⟩ := hgap.exists_append
    obtain ⟨front', rfl⟩ := ih
    exact ⟨front ++ (word ++ front'), by simp⟩

section Gaps

theorem byteLength_append (cs ds : List Char) :
    byteLength (cs ++ ds) = byteLength cs + byteLength ds := by
  induction cs with
  | nil => simp [byteLength]
  | cons c cs ih => simp [byteLength, ih, Nat.add_assoc]

theorem byteLength_eq_utf8ByteSize (cs : List Char) :
    byteLength cs = (String.ofList cs).utf8ByteSize := by
  induction cs with
  | nil => simp [byteLength]
  | cons c cs ih =>
    have hsplit : String.ofList (c :: cs) = String.singleton c ++ String.ofList cs := by
      rw [String.singleton_eq_ofList, ← String.ofList_append, List.singleton_append]
    rw [byteLength, ih, hsplit, String.utf8ByteSize_append, String.utf8ByteSize_singleton]

theorem byteLength_toList (s : String) : byteLength s.toList = s.utf8ByteSize := by
  rw [byteLength_eq_utf8ByteSize, String.ofList_toList]

/-- What is passed over when the text begins outside or inside of a comment. -/
def PassesFrom : Bool → List Char → List Char → Prop
  | false, cs, rest => Passes cs rest
  | true, cs, rest => ∃ line tail, cs = line ++ tail ∧ '\n' ∉ line ∧
      (∀ c ∈ tail.head?, c = '\n') ∧ Passes tail rest

theorem passesFrom_skipGap (inComment : Bool) (offset : Nat) (cs : List Char) :
    PassesFrom inComment cs (skipGap inComment offset cs).2 := by
  induction cs generalizing inComment offset with
  | nil =>
    cases inComment with
    | false => exact .refl []
    | true => exact ⟨[], [], rfl, by simp, by simp, .refl []⟩
  | cons c cs ih =>
    rw [skipGap]
    cases inComment with
    | true =>
      rw [if_pos rfl]
      by_cases hc : c = '\n'
      · subst hc
        exact ⟨[], _, rfl, by simp, by simp, .blank (by decide) (ih false _)⟩
      · rw [decide_eq_true hc]
        obtain ⟨line, tail, rfl, hline, htail, hpasses⟩ := ih true (offset + c.utf8Size)
        exact ⟨c :: line, tail, rfl, by simpa [hline] using Ne.symm hc, htail, hpasses⟩
    | false =>
      rw [if_neg Bool.false_ne_true]
      split
      · next hblank => exact .blank hblank (ih false _)
      · split
        · next hslash =>
          rw [Bool.and_eq_true, decide_eq_true_eq, decide_eq_true_eq] at hslash
          obtain ⟨rfl, hslash⟩ := hslash
          obtain ⟨line, tail, rfl, hline, htail, hpasses⟩ := ih true (offset + '/'.utf8Size)
          -- The second slash belongs to the line of the comment, since it does not end a line.
          cases line with
          | nil => exact absurd (htail '/' hslash) (by decide)
          | cons d line =>
            obtain rfl : d = '/' := by simpa using hslash
            exact .comment (fun h => hline (List.mem_cons_of_mem _ h)) htail hpasses
        · exact .refl _

theorem skipGap_add_byteLength (inComment : Bool) (offset : Nat) (cs : List Char) :
    (skipGap inComment offset cs).1 + byteLength (skipGap inComment offset cs).2 =
      offset + byteLength cs := by
  induction cs generalizing inComment offset with
  | nil => rfl
  | cons c cs ih =>
    have hstep (inComment : Bool) := ih inComment (offset + c.utf8Size)
    rw [skipGap, byteLength]
    split
    · rw [hstep, Nat.add_assoc]
    · split
      · rw [hstep, Nat.add_assoc]
      · split
        · rw [hstep, Nat.add_assoc]
        · rfl

theorem noGap_skipGap (inComment : Bool) (offset : Nat) (cs : List Char) :
    NoGap (skipGap inComment offset cs).2 := by
  induction cs generalizing inComment offset with
  | nil => rintro c rest ⟨⟩
  | cons c cs ih =>
    rw [skipGap]
    split
    · exact ih _ _
    · split
      · exact ih _ _
      · split
        · exact ih _ _
        · next hblank hslash =>
          rintro _ _ ⟨⟩
          exact ⟨hblank, by simpa using hslash⟩

theorem gap_of_skipGap {start : Nat} (h : skipGap false offset cs = (start, rest)) :
    Passes cs rest ∧ NoGap rest ∧ start + byteLength rest = offset + byteLength cs := by
  have hpasses := passesFrom_skipGap false offset cs
  have hnoGap := noGap_skipGap false offset cs
  have hlength := skipGap_add_byteLength false offset cs
  rw [h] at hpasses hnoGap hlength
  exact ⟨hpasses, hnoGap, hlength⟩

end Gaps

section Tokens

variable {c : Char} {n : Nat}

theorem exists_span (p : Char → Bool) (cs : List Char) :
    ∃ front back, cs = front ++ back ∧ cs.takeWhile p = front ∧ (∀ d ∈ front, p d = true) ∧
      ∀ d ∈ back.head?, ¬ p d = true := by
  induction cs with
  | nil => exact ⟨[], [], rfl, rfl, by simp, by simp⟩
  | cons c cs ih =>
    by_cases hc : p c = true
    · obtain ⟨front, back, rfl, htake, hfront, hback⟩ := ih
      exact ⟨c :: front, back, rfl, by rw [List.takeWhile_cons_of_pos hc, htake],
        List.forall_mem_cons.mpr ⟨hc, hfront⟩, hback⟩
    · exact ⟨[], c :: cs, rfl, List.takeWhile_cons_of_neg hc, by simp, by simpa using hc⟩

theorem begins_of_scan (hgap : NoGap (c :: cs)) (h : scan c cs = .ok (t, n)) :
    Begins t (c :: cs.take n) (cs.drop n) := by
  obtain ⟨hblank, hslash⟩ := hgap c cs rfl
  rw [scan] at h
  split at h
  · next hdigit =>
    obtain ⟨front, back, rfl, htake, hfront, hback⟩ := exists_span Char.isDigit cs
    simp only [htake] at h
    split at h
    · next hlimit =>
      cases h
      simpa using Begins.number (List.cons_ne_nil c front)
        (List.forall_mem_cons.mpr ⟨hdigit, hfront⟩) hback hlimit
    · cases h
  · next hdigit =>
    split at h
    · next hword =>
      obtain ⟨front, back, rfl, htake, hfront, hback⟩ := exists_span continuesWord cs
      simp only [htake] at h
      cases h
      simpa using Begins.word hword hfront hback
    · next hword =>
      have hsign : isSign c = true := isSign_iff.mpr ⟨hblank, hdigit, hword⟩
      split at h
      · next htwo =>
        cases h
        obtain ⟨d, hd, htwo⟩ := Option.bind_eq_some_iff.mp htwo
        obtain ⟨tail, rfl⟩ := List.head?_eq_some_iff.mp hd
        exact .two hsign htwo
      · next htwo =>
        split at h
        · next hone =>
          cases h
          refine .one hsign (fun d hd => ⟨Option.bind_eq_none_iff.mp htwo d hd, ?_⟩) hone
          rintro rfl rfl
          exact hslash rfl hd
        · cases h

theorem unreadable_of_scan {fault : ParseFault} (hgap : NoGap (c :: cs))
    (h : scan c cs = .error fault) : Unreadable (c :: cs) := by
  rw [scan] at h
  split at h
  · next hdigit =>
    obtain ⟨front, back, rfl, htake, hfront, hback⟩ := exists_span Char.isDigit cs
    simp only [htake] at h
    split at h
    · cases h
    · next hlimit =>
      exact .number (List.cons_ne_nil c front) (List.forall_mem_cons.mpr ⟨hdigit, hfront⟩) hback
        (Nat.le_of_not_lt hlimit)
  · next hdigit =>
    split at h
    · cases h
    · next hword =>
      split at h
      · cases h
      · next htwo =>
        split at h
        · cases h
        · next hone =>
          exact .character (isSign_iff.mpr ⟨(hgap c cs rfl).1, hdigit, hword⟩)
            (Option.bind_eq_none_iff.mp htwo) hone

end Tokens

section Cuts

/-- What stands in front: a token, or the end of the text. -/
def Front : Option Token → List Char → Prop
  | some t, rest => ∃ word mid, rest = word ++ mid ∧ Begins t word mid
  | none, rest => rest = []

/-- Where the token number `k` begins, or the text ends. -/
def startOf (lexemes : List Lexeme) (length k : Nat) : Nat :=
  (lexemes[k]?.map start).getD length

theorem first_of_skipGap {start n : Nat} {c : Char}
    (hgap : skipGap false offset cs = (start, c :: rest)) (hscan : scan c rest = .ok (t, n)) :
    Passes cs (c :: rest.take n ++ rest.drop n) ∧ Begins t (c :: rest.take n) (rest.drop n) ∧
      start + byteLength (c :: rest.take n) + byteLength (rest.drop n) =
        offset + byteLength cs := by
  obtain ⟨hpasses, hnoGap, hlength⟩ := gap_of_skipGap hgap
  have hsplit : c :: rest.take n ++ rest.drop n = c :: rest := by simp
  rw [Nat.add_assoc, ← byteLength_append, hsplit]
  exact ⟨hpasses, begins_of_scan hnoGap hscan, hlength⟩

theorem cut_of_lexFrom {lexemes : List Lexeme} (h : lexFrom offset cs = .ok lexemes) {k : Nat}
    (hk : k ≤ lexemes.length) :
    ∃ rest, Cut cs ((lexemes.map token).take k) rest ∧ Front (lexemes.map token)[k]? rest ∧
      startOf lexemes (offset + byteLength cs) k + byteLength rest = offset + byteLength cs := by
  fun_induction lexFrom offset cs generalizing lexemes k with
  | case1 offset cs start hgap =>
    cases h
    obtain rfl : k = 0 := Nat.le_zero.mp hk
    exact ⟨[], .gap (gap_of_skipGap hgap).1, rfl, rfl⟩
  | case2 offset cs start c rest hgap fault hscan => cases h
  | case3 offset cs start c rest hgap t n hscan stop =>
    rename_i ih
    obtain ⟨hpasses, hbegins, hlength⟩ := first_of_skipGap hgap hscan
    cases hmore : lexFrom stop (rest.drop n) with
    | error e =>
      rw [hmore] at h
      cases h
    | ok more =>
      rw [hmore] at h
      cases h
      cases k with
      | zero =>
        refine ⟨_, .gap hpasses, ⟨_, _, rfl, hbegins⟩, ?_⟩
        rw [← hlength, byteLength_append, ← Nat.add_assoc]
        rfl
      | succ k =>
        obtain ⟨rest', hcut, hfront, hstart⟩ := ih hmore (Nat.le_of_succ_le_succ hk)
        refine ⟨rest', .token hpasses hbegins hcut, hfront, ?_⟩
        rw [← hlength]
        exact hstart

theorem cut_of_lexFrom_error {e : ParseError} (h : lexFrom offset cs = .error e) :
    ∃ ts rest, Cut cs ts rest ∧ Unreadable rest ∧
      e.offset + byteLength rest = offset + byteLength cs := by
  fun_induction lexFrom offset cs with
  | case1 offset cs start hgap => cases h
  | case2 offset cs start c rest hgap fault hscan =>
    cases h
    obtain ⟨hpasses, hnoGap, hlength⟩ := gap_of_skipGap hgap
    exact ⟨[], c :: rest, .gap hpasses, unreadable_of_scan hnoGap hscan, hlength⟩
  | case3 offset cs start c rest hgap t n hscan stop =>
    rename_i ih
    obtain ⟨hpasses, hbegins, hlength⟩ := first_of_skipGap hgap hscan
    cases hmore : lexFrom stop (rest.drop n) with
    | ok more =>
      rw [hmore] at h
      cases h
    | error e' =>
      rw [hmore] at h
      cases h
      obtain ⟨ts, rest', hcut, hrest, hoffset⟩ := ih hmore
      exact ⟨t :: ts, rest', .token hpasses hbegins hcut, hrest, hoffset.trans hlength⟩

end Cuts

end Lexeme

/-- Numbers up to the limit of literals and identifiers are spelled; all other tokens always are. -/
def Token.Spellable : Token → Prop
  | int n => n < Lexeme.literalLimit
  | ident name => isIdentifier name = true
  | _ => True

namespace Lexeme

theorem spellable_ofWord {c : Char} {cs : List Char} (hc : startsWord c = true)
    (hcs : ∀ d ∈ cs, continuesWord d = true) :
    (Token.ofWord (String.ofList (c :: cs))).Spellable := by
  cases hword : Token.ofWord (String.ofList (c :: cs)) with
  | ident name => exact isIdentifier_of_ofWord hc (List.all_eq_true.mpr hcs) hword
  | int n =>
    rw [Token.ofWord] at hword
    cases hlookup : Token.reserved.lookup (String.ofList (c :: cs)) with
    | none =>
      rw [hlookup] at hword
      cases hword
    | some t =>
      rw [hlookup] at hword
      cases hword
      obtain ⟨before, after, hsplit, _⟩ := List.lookup_eq_some_iff.mp hlookup
      have hmem : (String.ofList (c :: cs), Token.int n) ∈ Token.reserved := by simp [hsplit]
      simp [Token.reserved] at hmem
  | _ => trivial

theorem Begins.spellable {t : Token} {word rest : List Char} (h : Begins t word rest) :
    t.Spellable := by
  cases h with
  | number hne hdigits hstop hlimit => exact hlimit
  | word hc hcs hstop => exact spellable_ofWord hc hcs
  | two hc htwo =>
    unfold Token.ofTwo? at htwo
    split at htwo <;> cases htwo <;> trivial
  | one hc htwo hone =>
    unfold Token.ofOne? at hone
    split at hone <;> cases hone <;> trivial

theorem Cut.spellable {cs rest : List Char} {ts : List Token} (h : Cut cs ts rest) :
    ∀ t ∈ ts, t.Spellable := by
  induction h with
  | gap h => simp
  | token hgap ht h ih => exact List.forall_mem_cons.mpr ⟨ht.spellable, ih⟩

theorem spellable_of_lex {source : String} {lexemes : List Lexeme}
    (h : lex source = .ok lexemes) : ∀ t ∈ lexemes.map token, t.Spellable := by
  obtain ⟨_, hcut, _⟩ := cut_of_lexFrom h (Nat.le_refl lexemes.length)
  rw [← List.length_map (f := token), List.take_length] at hcut
  exact hcut.spellable

theorem lexes_spelling {t : Token} (ht : t.Spellable) {rest : List Char} {ts : List Token}
    (h : Lexes rest ts) : Lexes (t.spelling.toList ++ ' ' :: rest) (t :: ts) := by
  have hstop : Boundary (' ' :: rest) := boundary_cons (by decide)
  cases t with
  | int n => exact Lexes.number ht hstop h.blank
  | ident name => exact (Prints.identifier ht).lexes hstop h.blank
  | op o => exact lexes_op o h
  | wordIf | wordFi | wordDo | wordOd | wordSkip | wordAtomic | wordTrue | wordFalse =>
    exact (Prints.reserved (by simp [Token.reserved, Token.spelling])).lexes hstop h.blank
  | doubleColon | arrow | assign => exact Lexes.twoSigns (by decide) rfl h.blank
  | _ => exact Lexes.sign (by decide) rfl (fun d hd => by cases hd; decide) h.blank

/-- Tokens that can be spelled make up a text. -/
theorem exists_lex {ts : List Token} (h : ∀ t ∈ ts, t.Spellable) :
    ∃ source lexemes, lex source = .ok lexemes ∧ lexemes.map token = ts := by
  have hlexes : Lexes (ts.flatMap fun t => t.spelling.toList ++ [' ']) ts := by
    induction ts with
    | nil => exact lexes_nil
    | cons t ts ih =>
      rw [List.flatMap_cons, List.append_assoc, List.singleton_append]
      exact lexes_spelling (h t List.mem_cons_self) (ih fun u hu => h u (List.mem_cons_of_mem t hu))
  obtain ⟨lexemes, hlex, htokens⟩ := hlexes 0
  exact ⟨String.ofList _, lexemes, by rwa [lex, String.toList_ofList], htokens⟩

end Lexeme

end OmegaCheck
