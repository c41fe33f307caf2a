import OmegaCheck.Program.Lexeme

/-!
# Lexing by byte offsets

Tokens are found by offsets into the bytes of a text: each look at the text takes a slice from an
offset on, and fails if that offset lies inside of a character. Reading ends, since fewer bytes are
left behind each character that is found.
-/

namespace OmegaCheck

namespace Lexeme

/-- The text between two byte offsets, if they are in order and neither splits a character. -/
def slice? (source : String) (start stop : Nat) : Option String :=
  if h : start ≤ stop ∧ (String.Pos.Raw.mk start).isValid source = true ∧
      (String.Pos.Raw.mk stop).isValid source = true then
    some (String.extract (s := source) ⟨⟨start⟩, String.Pos.Raw.isValid_eq_true_iff.mp h.2.1⟩
      ⟨⟨stop⟩, String.Pos.Raw.isValid_eq_true_iff.mp h.2.2⟩)
  else none

/-- The first character from an offset on; the text may be at its end there. -/
def charAt? (source : String) (offset : Nat) : Option (Option Char) :=
  (slice? source offset source.utf8ByteSize).map fun text => text.toList.head?

/-- The second character from an offset on. -/
def charAfter? (source : String) (offset : Nat) : Option (Option Char) :=
  (slice? source offset source.utf8ByteSize).map fun text => text.toList[1]?

section Slices

variable {source : String} {offset stop : Nat} {c : Char}

theorem slice?_append (front text back : String) :
    slice? (front ++ (text ++ back)) front.utf8ByteSize (front.utf8ByteSize + text.utf8ByteSize) =
      some text := by
  have hassoc : front ++ (text ++ back) = front ++ text ++ back := String.append_assoc.symm
  have hend : String.Pos.Raw.mk (front.utf8ByteSize + text.utf8ByteSize) =
      (front ++ text).rawEndPos := by
    rw [← String.utf8ByteSize_append]
    rfl
  have hstart : (String.Pos.Raw.mk front.utf8ByteSize).IsValid (front ++ (text ++ back)) :=
    String.Pos.Raw.isValid_iff_exists_append.mpr ⟨front, text ++ back, rfl, rfl⟩
  have hstop : (String.Pos.Raw.mk (front.utf8ByteSize + text.utf8ByteSize)).IsValid
      (front ++ (text ++ back)) :=
    String.Pos.Raw.isValid_iff_exists_append.mpr ⟨front ++ text, back, hassoc, hend⟩
  have hsplits : ∃ h : (⟨_, hstart⟩ : (front ++ (text ++ back)).Pos) ≤ ⟨_, hstop⟩,
      (String.slice _ _ _ h).copy = text :=
    String.copy_slice_eq_iff_splits.mpr ⟨front, back, ⟨rfl, rfl⟩, ⟨hassoc, hend⟩⟩
  obtain ⟨hle, hcopy⟩ := hsplits
  rw [slice?, dif_pos ⟨Nat.le_add_right _ _, String.Pos.Raw.isValid_eq_true_iff.mpr hstart,
    String.Pos.Raw.isValid_eq_true_iff.mpr hstop⟩, String.extract_eq_copy_slice _ _ hle, hcopy]

theorem charAt?_end (source : String) : charAt? source source.utf8ByteSize = some none := by
  have hslice := slice?_append source "" ""
  rw [String.append_empty, String.append_empty, String.utf8ByteSize_empty, Nat.add_zero] at hslice
  rw [charAt?, hslice]
  rfl

theorem lt_of_charAt? (h : charAt? source offset = some (some c)) :
    offset < source.utf8ByteSize := by
  obtain ⟨text, htext, -⟩ := Option.map_eq_some_iff.mp h
  rw [slice?] at htext
  split at htext
  next hvalid =>
    refine Nat.lt_of_le_of_ne hvalid.1 ?_
    rintro rfl
    cases (charAt?_end source).symm.trans h
  next => cases htext

/-- Fewer bytes are left behind a character. -/
theorem left_lt_of_charAt? (h : charAt? source offset = some (some c)) (hlt : offset < stop) :
    source.utf8ByteSize - stop < source.utf8ByteSize - offset := by
  have := lt_of_charAt? h
  omega

end Slices

section Readers

variable {source : String} {offset start stop : Nat}

/-- The offset behind the end of the line. -/
def lineEnd? (source : String) (offset : Nat) : Option Nat :=
  match _hc : charAt? source offset with
  | none => none
  | some none => some offset
  | some (some c) =>
    if c = '\n' then some (offset + c.utf8Size)
    else lineEnd? source (offset + c.utf8Size)
termination_by source.utf8ByteSize - offset
decreasing_by exact left_lt_of_charAt? _hc (Nat.lt_add_of_pos_right c.utf8Size_pos)

theorem le_of_lineEnd? (h : lineEnd? source offset = some stop) :
    offset ≤ stop ∧ (charAt? source offset ≠ some none → offset < stop) := by
  fun_induction lineEnd? source offset with
  | case1 offset hnone => cases h
  | case2 offset hend => exact ⟨Nat.le_of_eq (Option.some.inj h), fun hne => absurd hend hne⟩
  | case3 offset hc =>
    have hlt : offset < stop :=
      Nat.lt_of_lt_of_eq (Nat.lt_add_of_pos_right (Char.utf8Size_pos _)) (Option.some.inj h)
    exact ⟨Nat.le_of_lt hlt, fun _ => hlt⟩
  | case4 offset c hc hline ih =>
    have hlt : offset < stop :=
      Nat.lt_of_lt_of_le (Nat.lt_add_of_pos_right c.utf8Size_pos) (ih h).1
    exact ⟨Nat.le_of_lt hlt, fun _ => hlt⟩

/-- The offset behind blanks and comments. -/
def gapEnd? (source : String) (offset : Nat) : Option Nat :=
  match _hc : charAt? source offset with
  | none => none
  | some none => some offset
  | some (some c) =>
    if Text.isBlank c then gapEnd? source (offset + c.utf8Size)
    else if c = '/' then
      match charAfter? source offset with
      | none => none
      | some next =>
        if next = some '/' then
          match _hline : lineEnd? source offset with
          | none => none
          | some stop => gapEnd? source stop
        else some offset
    else some offset
termination_by source.utf8ByteSize - offset
decreasing_by
  · exact left_lt_of_charAt? _hc (Nat.lt_add_of_pos_right c.utf8Size_pos)
  · exact left_lt_of_charAt? _hc ((le_of_lineEnd? _hline).2 (by simp [_hc]))

theorem le_of_gapEnd? (h : gapEnd? source offset = some start) : offset ≤ start := by
  fun_induction gapEnd? source offset with
  | case1 | case4 | case5 => cases h
  | case2 | case7 | case8 => exact Nat.le_of_eq (Option.some.inj h)
  | case3 offset c hc hblank ih => exact Nat.le_trans (Nat.le_add_right _ _) (ih h)
  | case6 offset stop hline hc hblank hnext ih =>
    exact Nat.le_trans (le_of_lineEnd? hline).1 (ih h)

/-- The offset behind all characters in front that satisfy `p`. -/
def runEnd? (source : String) (p : Char → Bool) (offset : Nat) : Option Nat :=
  match _hc : charAt? source offset with
  | none => none
  | some none => some offset
  | some (some c) =>
    if p c then runEnd? source p (offset + c.utf8Size)
    else some offset
termination_by source.utf8ByteSize - offset
decreasing_by exact left_lt_of_charAt? _hc (Nat.lt_add_of_pos_right c.utf8Size_pos)

theorem le_of_runEnd? {p : Char → Bool} (h : runEnd? source p offset = some stop) :
    offset ≤ stop := by
  fun_induction runEnd? source p offset with
  | case1 offset hnone => cases h
  | case2 | case4 => exact Nat.le_of_eq (Option.some.inj h)
  | case3 offset c hc hp ih => exact Nat.le_trans (Nat.le_add_right _ _) (ih h)

/-- The token that begins with `c` at the offset `start`, and where it stops. -/
def tokenAt? (source : String) (start : Nat) (c : Char) :
    Option (Except ParseFault (Token × Nat)) := do
  if c.isDigit then
    let stop ← runEnd? source Char.isDigit (start + c.utf8Size)
    let digits ← slice? source start stop
    let magnitude := Nat.ofDigitChars 10 digits.toList 0
    if magnitude < literalLimit then return .ok (.int magnitude, stop)
    else return .error (.literalOutOfRange digits)
  else if startsWord c then
    let stop ← runEnd? source continuesWord (start + c.utf8Size)
    let word ← slice? source start stop
    return .ok (Token.ofWord word, stop)
  else
    let next ← charAt? source (start + c.utf8Size)
    match next.bind fun d => (Token.ofTwo? c d).map fun token => (token, d.utf8Size) with
    | some (token, size) => return .ok (token, start + c.utf8Size + size)
    | none =>
      match Token.ofOne? c with
      | some token => return .ok (token, start + c.utf8Size)
      | none => return .error (.unexpectedCharacter c)

theorem lt_of_tokenAt? {c : Char} {token : Token}
    (h : tokenAt? source start c = some (.ok (token, stop))) : start < stop := by
  -- The token takes in at least its first character.
  refine Nat.lt_of_lt_of_le (Nat.lt_add_of_pos_right c.utf8Size_pos) ?_
  rw [tokenAt?] at h
  split at h
  · obtain ⟨_, hrun, h⟩ := Option.bind_eq_some_iff.mp h
    obtain ⟨digits, -, h⟩ := Option.bind_eq_some_iff.mp h
    dsimp only at h
    split at h
    · cases h
      exact le_of_runEnd? hrun
    · cases h
  split at h
  · obtain ⟨_, hrun, h⟩ := Option.bind_eq_some_iff.mp h
    obtain ⟨word, -, h⟩ := Option.bind_eq_some_iff.mp h
    cases h
    exact le_of_runEnd? hrun
  · obtain ⟨next, -, h⟩ := Option.bind_eq_some_iff.mp h
    split at h
    · cases h
      exact Nat.le_add_right _ _
    · split at h
      · cases h
        exact Nat.le_refl _
      · cases h

/-- The tokens from an offset on with the offsets of their beginnings. The end of the text is the
last of them, and no token. -/
def tokensFrom? (source : String) (offset : Nat) :
    Option (Except ParseError (List (Option Token × Nat))) :=
  match _hgap : gapEnd? source offset with
  | none => none
  | some start =>
    match _hc : charAt? source start with
    | none => none
    | some none => some (.ok [(none, start)])
    | some (some c) =>
      match _htoken : tokenAt? source start c with
      | none => none
      | some (.error fault) => some (.error ⟨start, fault⟩)
      | some (.ok (token, stop)) =>
        (tokensFrom? source stop).map fun more => more.map ((some token, start) :: ·)
termination_by source.utf8ByteSize - offset
decreasing_by
  calc source.utf8ByteSize - stop
    _ < source.utf8ByteSize - start := left_lt_of_charAt? _hc (lt_of_tokenAt? _htoken)
    _ ≤ source.utf8ByteSize - offset := Nat.sub_le_sub_left (le_of_gapEnd? _hgap) _

end Readers

end Lexeme

end OmegaCheck
