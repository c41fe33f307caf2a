import OmegaCheck.Program.Offset
import OmegaCheck.Proofs.Program.Cutting

/-!
# Lexing by byte offsets

The lexemes of a text are found by going through its characters. Reading by offsets into its bytes
fails for no text, and it finds the same tokens, since it only ever goes on by the length of a
character that it has read.
-/

namespace OmegaCheck

namespace Lexeme

/-- From a byte offset on, the text reads so. -/
def ReadsFrom (source : String) (offset : Nat) (cs : List Char) : Prop :=
  ∃ front, source.toList = front ++ cs ∧ byteLength front = offset

section Slices

variable {source : String} {offset : Nat} {cs word rest : List Char}

theorem ReadsFrom.start (source : String) : ReadsFrom source 0 source.toList := ⟨[], rfl, rfl⟩

theorem ReadsFrom.drop (h : ReadsFrom source offset (word ++ rest)) :
    ReadsFrom source (offset + byteLength word) rest := by
  obtain ⟨front, hfront, rfl⟩ := h
  exact ⟨front ++ word, by rw [hfront, List.append_assoc], byteLength_append front word⟩

theorem ReadsFrom.tail {c : Char} (h : ReadsFrom source offset (c :: cs)) :
    ReadsFrom source (offset + c.utf8Size) cs := by
  have hsplit : ReadsFrom source offset ([c] ++ cs) := h
  exact hsplit.drop

theorem ReadsFrom.end_eq (h : ReadsFrom source offset cs) :
    offset + byteLength cs = source.utf8ByteSize := by
  obtain ⟨front, hfront, rfl⟩ := h
  rw [← byteLength_toList, hfront, byteLength_append]

theorem ReadsFrom.isValid (h : ReadsFrom source offset cs) :
    (String.Pos.Raw.mk offset).IsValid source := by
  obtain ⟨front, hfront, rfl⟩ := h
  refine String.Pos.Raw.isValid_iff_exists_append.mpr ⟨.ofList front, .ofList cs, ?_, ?_⟩
  · rw [← String.ofList_append, ← hfront, String.ofList_toList]
  · rw [byteLength_eq_utf8ByteSize]
    rfl

/-- A slice behind an offset to which the text was read is what was read. -/
theorem ReadsFrom.slice?_eq (h : ReadsFrom source offset (word ++ rest)) :
    slice? source offset (offset + byteLength word) = some (String.ofList word) := by
  obtain ⟨front, hfront, rfl⟩ := h
  have hsource : source = String.ofList front ++ (String.ofList word ++ String.ofList rest) := by
    rw [← String.ofList_append, ← String.ofList_append, ← hfront, String.ofList_toList]
  rw [byteLength_eq_utf8ByteSize front, byteLength_eq_utf8ByteSize word, hsource, slice?_append]

theorem ReadsFrom.slice?_end (h : ReadsFrom source offset cs) :
    slice? source offset source.utf8ByteSize = some (String.ofList cs) := by
  have hsplit : ReadsFrom source offset (cs ++ []) := by rwa [List.append_nil]
  rw [← h.end_eq, hsplit.slice?_eq]

theorem ReadsFrom.charAt?_eq (h : ReadsFrom source offset cs) :
    charAt? source offset = some cs.head? := by
  rw [charAt?, h.slice?_end, Option.map_some, String.toList_ofList]

theorem ReadsFrom.charAfter?_eq {c : Char} (h : ReadsFrom source offset (c :: cs)) :
    charAfter? source offset = some cs.head? := by
  rw [charAfter?, h.slice?_end, Option.map_some, String.toList_ofList, List.getElem?_cons_succ,
    List.head?_eq_getElem?]

theorem ReadsFrom.eq_nil (h : ReadsFrom source offset cs)
    (hend : charAt? source offset = some none) : cs = [] :=
  List.head?_eq_none_iff.mp (Option.some.inj (h.charAt?_eq.symm.trans hend))

theorem ReadsFrom.eq_cons {c : Char} (h : ReadsFrom source offset cs)
    (hc : charAt? source offset = some (some c)) : ∃ tail, cs = c :: tail :=
  List.head?_eq_some_iff.mp (Option.some.inj (h.charAt?_eq.symm.trans hc))

theorem ReadsFrom.charAt?_ne_none (h : ReadsFrom source offset cs) : charAt? source offset ≠ none :=
  fun hnone => nomatch h.charAt?_eq.symm.trans hnone

end Slices

section Readers

variable {source : String} {offset : Nat} {cs : List Char}

/-- Behind the line, the gap goes on outside of the comment. -/
theorem ReadsFrom.exists_lineEnd? (h : ReadsFrom source offset cs) :
    ∃ stop rest, lineEnd? source offset = some stop ∧ ReadsFrom source stop rest ∧
      skipGap true offset cs = skipGap false stop rest := by
  fun_induction lineEnd? source offset generalizing cs with
  | case1 offset hnone => exact absurd hnone h.charAt?_ne_none
  | case2 offset hend =>
    obtain rfl := h.eq_nil hend
    exact ⟨offset, [], rfl, h, rfl⟩
  | case3 offset hc =>
    obtain ⟨tail, rfl⟩ := h.eq_cons hc
    exact ⟨_, tail, rfl, h.tail, rfl⟩
  | case4 offset c hc hline ih =>
    obtain ⟨tail, rfl⟩ := h.eq_cons hc
    obtain ⟨stop, rest, hstop, hrest, hskip⟩ := ih h.tail
    refine ⟨stop, rest, hstop, hrest, ?_⟩
    rw [skipGap, if_pos rfl, decide_eq_true hline, hskip]

theorem ReadsFrom.gapEnd?_eq (h : ReadsFrom source offset cs) :
    gapEnd? source offset = some (skipGap false offset cs).1 ∧
      ReadsFrom source (skipGap false offset cs).1 (skipGap false offset cs).2 := by
  fun_induction gapEnd? source offset generalizing cs with
  | case1 offset hnone => exact absurd hnone h.charAt?_ne_none
  | case2 offset hend =>
    obtain rfl := h.eq_nil hend
    exact ⟨rfl, h⟩
  | case3 offset c hc hblank ih =>
    obtain ⟨tail, rfl⟩ := h.eq_cons hc
    rw [skipGap, if_neg Bool.false_ne_true, if_pos hblank]
    exact ih h.tail
  | case4 offset hnone hc hblank =>
    obtain ⟨tail, rfl⟩ := h.eq_cons hc
    cases h.charAfter?_eq.symm.trans hnone
  | case5 offset hnone hc hblank hnext =>
    obtain ⟨stop, rest, hstop, -⟩ := h.exists_lineEnd?
    cases hstop.symm.trans hnone
  | case6 offset stop hline hc hblank hnext ih =>
    obtain ⟨tail, rfl⟩ := h.eq_cons hc
    have hhead : tail.head? = some '/' := Option.some.inj (h.charAfter?_eq.symm.trans hnext)
    obtain ⟨stop', rest, hstop, hrest, hskip⟩ := h.exists_lineEnd?
    obtain rfl : stop' = stop := Option.some.inj (hstop.symm.trans hline)
    -- The comment is passed over from its second slash on.
    rw [skipGap, if_pos rfl] at hskip
    rw [skipGap, if_neg Bool.false_ne_true, if_neg hblank, if_pos (by simpa using hhead)]
    exact hskip ▸ ih hrest
  | case7 offset next hnext hne hc hblank =>
    obtain ⟨tail, rfl⟩ := h.eq_cons hc
    obtain rfl : tail.head? = next := Option.some.inj (h.charAfter?_eq.symm.trans hnext)
    rw [skipGap, if_neg Bool.false_ne_true, if_neg hblank, if_neg (by simpa using hne)]
    exact ⟨rfl, h⟩
  | case8 offset c hc hblank hslash =>
    obtain ⟨tail, rfl⟩ := h.eq_cons hc
    rw [skipGap, if_neg Bool.false_ne_true, if_neg hblank, if_neg (by simp [hslash])]
    exact ⟨rfl, h⟩

theorem ReadsFrom.runEnd?_eq (p : Char → Bool) (h : ReadsFrom source offset cs) :
    runEnd? source p offset = some (offset + byteLength (cs.takeWhile p)) := by
  fun_induction runEnd? source p offset generalizing cs with
  | case1 offset hnone => exact absurd hnone h.charAt?_ne_none
  | case2 offset hend =>
    obtain rfl := h.eq_nil hend
    rfl
  | case3 offset c hc hp ih =>
    obtain ⟨tail, rfl⟩ := h.eq_cons hc
    rw [ih h.tail, List.takeWhile_cons_of_pos hp, byteLength, Nat.add_assoc]
  | case4 offset c hc hp =>
    obtain ⟨tail, rfl⟩ := h.eq_cons hc
    rw [List.takeWhile_cons_of_neg hp]
    rfl

/-- The slice of a run, with a character in front of it. -/
theorem ReadsFrom.slice?_run {c : Char} (p : Char → Bool) (h : ReadsFrom source offset (c :: cs)) :
    slice? source offset (offset + c.utf8Size + byteLength (cs.takeWhile p)) =
      some (String.ofList (c :: cs.takeWhile p)) := by
  have hsplit : c :: cs = (c :: cs.takeWhile p) ++ cs.dropWhile p := by
    rw [List.cons_append, List.takeWhile_append_dropWhile]
  rw [hsplit] at h
  rw [Nat.add_assoc]
  exact h.slice?_eq

/-- A run stops as many characters behind its first one as it is long. -/
theorem byteLength_run (p : Char → Bool) (start : Nat) (c : Char) (cs : List Char) :
    start + byteLength (c :: cs.take ((c :: cs.takeWhile p).length - 1)) =
      start + c.utf8Size + byteLength (cs.takeWhile p) := by
  have htake := List.prefix_iff_eq_take.mp (List.takeWhile_prefix p (l := cs))
  rw [List.length_cons, Nat.add_sub_cancel, ← htake, byteLength, Nat.add_assoc]

end Readers

section Tokens

variable {source : String} {offset start : Nat} {c : Char} {cs rest : List Char}

theorem ReadsFrom.tokenAt?_eq (h : ReadsFrom source start (c :: rest)) :
    tokenAt? source start c = some ((scan c rest).map fun found =>
      (found.1, start + byteLength (c :: rest.take found.2))) := by
  rw [tokenAt?, scan]
  by_cases hdigit : c.isDigit = true
  · rw [if_pos hdigit, if_pos hdigit, h.tail.runEnd?_eq, Option.bind_eq_bind, Option.bind_some,
      h.slice?_run, Option.bind_eq_bind, Option.bind_some]
    simp only [String.toList_ofList]
    split
    · simp only [Except.map, byteLength_run]
      rfl
    · rfl
  · rw [if_neg hdigit, if_neg hdigit]
    by_cases hword : startsWord c = true
    · rw [if_pos hword, if_pos hword, h.tail.runEnd?_eq, Option.bind_eq_bind, Option.bind_some,
        h.slice?_run, Option.bind_eq_bind, Option.bind_some]
      simp only [Except.map, byteLength_run]
      rfl
    · rw [if_neg hword, if_neg hword, h.tail.charAt?_eq, Option.bind_eq_bind, Option.bind_some]
      cases htwo : rest.head?.bind (Token.ofTwo? c) with
      | some token =>
        obtain ⟨d, hd, htoken⟩ := Option.bind_eq_some_iff.mp htwo
        obtain ⟨tail, rfl⟩ := List.head?_eq_some_iff.mp hd
        simp [htoken, Except.map, byteLength, Nat.add_assoc]
      | none =>
        have hnone : (rest.head?.bind fun d =>
            (Token.ofTwo? c d).map fun token => (token, d.utf8Size)) = none := by
          simpa using htwo
        rw [hnone]
        cases Token.ofOne? c with
        | some token => simp [Except.map, byteLength]
        | none => rfl

theorem tokensFrom?_eq_bind (source : String) (offset : Nat) : tokensFrom? source offset = (do
    let start ← gapEnd? source offset
    match ← charAt? source start with
    | none => return .ok [(none, start)]
    | some c =>
      match ← tokenAt? source start c with
      | .error fault => return .error ⟨start, fault⟩
      | .ok (token, stop) =>
        (tokensFrom? source stop).map fun more => more.map ((some token, start) :: ·)) := by
  rw [tokensFrom?]
  split
  next hgap => rw [hgap]; rfl
  next start hgap =>
    rw [hgap]
    split
    next hc => simp [hc]
    next hc => simp [hc]
    next c hc =>
      split
      all_goals next htoken => simp [hc, htoken]

/-- The tokens with the offsets of their beginnings, and the end of the text behind them. -/
def marked (size : Nat) (lexemes : List Lexeme) : List (Option Token × Nat) :=
  lexemes.map (fun x => (some x.token, x.start)) ++ [(none, size)]

theorem ReadsFrom.gap (h : ReadsFrom source offset cs)
    (hgap : skipGap false offset cs = (start, rest)) :
    gapEnd? source offset = some start ∧ ReadsFrom source start rest := by
  have hend := h.gapEnd?_eq
  rwa [hgap] at hend

/-- Reading goes on behind the token that was found. -/
theorem ReadsFrom.drop_token (h : ReadsFrom source start (c :: rest)) (n : Nat) :
    ReadsFrom source (start + byteLength (c :: rest.take n)) (rest.drop n) := by
  apply ReadsFrom.drop
  rwa [List.cons_append, List.take_append_drop]

theorem ReadsFrom.tokensFrom?_eq (h : ReadsFrom source offset cs) :
    tokensFrom? source offset = some ((lexFrom offset cs).map (marked source.utf8ByteSize)) := by
  fun_induction lexFrom offset cs with
  | case1 offset cs start hgap =>
    obtain ⟨hstart, hrest⟩ := h.gap hgap
    rw [tokensFrom?_eq_bind, hstart, Option.bind_eq_bind, Option.bind_some, hrest.charAt?_eq,
      ← hrest.end_eq]
    rfl
  | case2 offset cs start c rest hgap fault hscan =>
    obtain ⟨hstart, hrest⟩ := h.gap hgap
    rw [tokensFrom?_eq_bind, hstart, Option.bind_eq_bind, Option.bind_some, hrest.charAt?_eq]
    simp only [List.head?_cons, hrest.tokenAt?_eq, hscan, Except.map, Option.bind_eq_bind,
      Option.bind_some]
    rfl
  | case3 offset cs start c rest hgap t n hscan stop =>
    rename_i ih
    obtain ⟨hstart, hrest⟩ := h.gap hgap
    have hmore := ih (hrest.drop_token n)
    rw [tokensFrom?_eq_bind, hstart, Option.bind_eq_bind, Option.bind_some, hrest.charAt?_eq]
    simp only [List.head?_cons, hrest.tokenAt?_eq, hscan, Except.map, Option.bind_eq_bind,
      Option.bind_some]
    rw [hmore]
    cases lexFrom stop (rest.drop n) <;> rfl

end Tokens

end Lexeme

end OmegaCheck
