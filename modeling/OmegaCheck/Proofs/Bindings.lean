import OmegaCheck.Memory
import OmegaCheck.Proofs.Program.Spelling

/-!
# Texts of bindings

A binding is written as a name, an equals sign and the text of a cell. The text of a cell is the
text of no other one and contains no equals sign, so the binding can be read off its text whatever
the name is.
-/

namespace OmegaCheck

namespace Text

section Cuts

variable {c : Char} {front front' back back' : List Char}

/-- How often a character stands in front of a cut at that character determines the cut. -/
theorem append_cons_inj_of_count_eq (h : front ++ c :: back = front' ++ c :: back')
    (hcount : front.count c = front'.count c) : front = front' ∧ back = back' := by
  induction front generalizing front' with
  | nil =>
    cases front' with
    | nil =>
      cases h
      exact ⟨rfl, rfl⟩
    | cons e es =>
      obtain ⟨rfl, -⟩ := List.cons.inj h
      simp at hcount
  | cons d ds ih =>
    cases front' with
    | nil =>
      obtain ⟨rfl, -⟩ := List.cons.inj h
      simp at hcount
    | cons e es =>
      obtain ⟨rfl, htail⟩ := List.cons.inj h
      rw [List.count_cons, List.count_cons] at hcount
      obtain ⟨rfl, rfl⟩ := ih htail (by omega)
      exact ⟨rfl, rfl⟩

theorem append_cons_inj_of_not_mem (h : front ++ c :: back = front' ++ c :: back')
    (hback : c ∉ back) (hback' : c ∉ back') : front = front' ∧ back = back' := by
  have hcount := congrArg (List.count c) h
  rw [List.count_append, List.count_append, List.count_cons_self, List.count_cons_self,
    List.count_eq_zero_of_not_mem hback, List.count_eq_zero_of_not_mem hback'] at hcount
  exact append_cons_inj_of_count_eq h (by omega)

end Cuts

theorem repr_injective {m n : Nat} (h : m.repr = n.repr) : m = n := by
  have hdigits := congrArg String.toList h
  rw [Nat.toList_repr, Nat.toList_repr] at hdigits
  calc
    m = Nat.ofDigitChars 10 (Nat.toDigits 10 m) 0 := Nat.ofDigitChars_ten_toDigits.symm
    _ = Nat.ofDigitChars 10 (Nat.toDigits 10 n) 0 := by rw [hdigits]
    _ = n := Nat.ofDigitChars_ten_toDigits

theorem decimal_injective {m n : Int} (h : decimal m = decimal n) : m = n := by
  have hsigned : ∀ k l : Nat, k.repr ≠ "-" ++ l.repr := by
    intro k l heq
    have hminus : '-' ∉ k.repr.toList := not_mem_repr (by decide) k
    simp [heq] at hminus
  cases m with
  | ofNat k =>
    cases n with
    | ofNat l => rw [repr_injective h]
    | negSucc l => exact absurd h (hsigned k (l + 1))
  | negSucc k =>
    cases n with
    | ofNat l => exact absurd h.symm (hsigned l (k + 1))
    | negSucc l =>
      have hrepr : (k + 1).repr = (l + 1).repr := by simpa [decimal] using h
      rw [Nat.succ.inj (repr_injective hrepr)]

theorem not_mem_decimal {c : Char} (hc : Lexeme.continuesWord c = false) (hminus : c ≠ '-')
    (n : Int) : c ∉ (decimal n).toList := by
  have hspelled : Spelled ["-"] (decimal n) := .decimal List.mem_cons_self n
  exact hspelled.not_mem hc (by simpa using hminus)

theorem decimal_ne_empty (n : Int) : decimal n ≠ "" := by
  cases n with
  | ofNat n => exact Nat.repr_ne_empty
  | negSucc n => simp [decimal]

theorem comma_mem_separated (s t : String) (rest : List String) :
    ',' ∈ (separated ", " (s :: t :: rest)).toList := by
  simp [separated]

theorem separated_cons_ne_empty {s : String} (hs : s ≠ "") (rest : List String) :
    separated ", " (s :: rest) ≠ "" := by
  cases rest <;> simp [separated, hs]

/-- A list can be read off the text of its items, if no item is empty or contains a comma. -/
theorem separated_injective {items items' : List String}
    (h : ∀ s ∈ items, s ≠ "" ∧ ',' ∉ s.toList) (h' : ∀ s ∈ items', s ≠ "" ∧ ',' ∉ s.toList)
    (heq : separated ", " items = separated ", " items') : items = items' := by
  induction items generalizing items' with
  | nil =>
    cases items' with
    | nil => rfl
    | cons t ts => exact absurd heq.symm (separated_cons_ne_empty (h' t List.mem_cons_self).1 ts)
  | cons s ss ih =>
    cases items' with
    | nil => exact absurd heq (separated_cons_ne_empty (h s List.mem_cons_self).1 ss)
    | cons t ts =>
      rw [List.forall_mem_cons] at h h'
      match ss, ts with
      | [], [] => exact congrArg (fun s => [s]) heq
      | [], u :: us =>
        have hcomma := comma_mem_separated t u us
        rw [← heq] at hcomma
        exact absurd hcomma h.1.2
      | v :: vs, [] =>
        have hcomma := comma_mem_separated s v vs
        rw [heq] at hcomma
        exact absurd hcomma h'.1.2
      | v :: vs, u :: us =>
        have hchars : s.toList ++ ',' :: ' ' :: (separated ", " (v :: vs)).toList =
            t.toList ++ ',' :: ' ' :: (separated ", " (u :: us)).toList := by
          simpa [separated] using congrArg String.toList heq
        have hcount : s.toList.count ',' = t.toList.count ',' := by
          rw [List.count_eq_zero_of_not_mem h.1.2, List.count_eq_zero_of_not_mem h'.1.2]
        obtain ⟨hfirst, hrest⟩ := append_cons_inj_of_count_eq hchars hcount
        rw [String.toList_inj.mp hfirst,
          ih h.2 h'.2 (String.toList_inj.mp (List.cons.inj hrest).2)]

end Text

namespace Cell

def symbols : List String := ["-", ", ", "[", "]"]

theorem spelled_text (c : Cell) : Spelled symbols c.text := by
  cases c with
  | int n => exact .decimal (by decide) n.toInt
  | queue messages =>
    have hitems : Spelled symbols
        (Text.separated ", " (messages.map fun n => Text.decimal n.toInt)) := by
      refine .separated (by decide) fun t ht => ?_
      obtain ⟨n, _, rfl⟩ := List.mem_map.mp ht
      exact .decimal (by decide) n.toInt
    have hopening : Spelled symbols "[" := .symbol (by decide)
    exact (hopening.append hitems).append (.symbol (by decide))

theorem text_injective {c d : Cell} (h : c.text = d.text) : c = d := by
  have hbracket : ∀ (n : Int64) (messages : List Int64), (int n).text ≠ (queue messages).text := by
    intro n messages heq
    have hmem : '[' ∉ (int n).text.toList := Text.not_mem_decimal (by decide) (by decide) n.toInt
    rw [heq] at hmem
    simp [text, messagesText, Literal.bracketed] at hmem
  have hitem : ∀ n : Int64, Text.decimal n.toInt ≠ "" ∧ ',' ∉ (Text.decimal n.toInt).toList :=
    fun n => ⟨Text.decimal_ne_empty n.toInt, Text.not_mem_decimal (by decide) (by decide) n.toInt⟩
  cases c with
  | int n =>
    cases d with
    | int k => rw [Int64.toInt_inj.mp (Text.decimal_injective h)]
    | queue messages => exact absurd h (hbracket n messages)
  | queue messages =>
    cases d with
    | int k => exact absurd h.symm (hbracket k messages)
    | queue others =>
      have hitems := Text.separated_injective (List.forall_mem_map.mpr fun n _ => hitem n)
        (List.forall_mem_map.mpr fun n _ => hitem n)
        (by simpa [text, messagesText, Literal.bracketed] using h)
      rw [(List.map_inj_right fun n k heq => Int64.toInt_inj.mp (Text.decimal_injective heq)).mp
        hitems]

end Cell

namespace Memory

theorem binding_injective {x y : String} {c d : Cell}
    (h : x ++ " = " ++ c.text = y ++ " = " ++ d.text) : x = y ∧ c = d := by
  have hequals : ∀ c : Cell, '=' ∉ ' ' :: c.text.toList := by
    intro c hmem
    obtain hmem | hmem := List.mem_cons.mp hmem
    · cases hmem
    · exact c.spelled_text.not_mem (by decide) (by decide) hmem
  have hchars : (x.toList ++ [' ']) ++ '=' :: ' ' :: c.text.toList =
      (y.toList ++ [' ']) ++ '=' :: ' ' :: d.text.toList := by
    simpa using congrArg String.toList h
  obtain ⟨hname, hcell⟩ := Text.append_cons_inj_of_not_mem hchars (hequals c) (hequals d)
  have htext : c.text = d.text := String.toList_inj.mp (List.cons.inj hcell).2
  exact ⟨String.toList_inj.mp (List.append_cancel_right hname), Cell.text_injective htext⟩

theorem mem_propositions {m : Memory} {p : String} :
    p ∈ m.propositions ↔ ∃ x c, m.get? x = some c ∧ x ++ " = " ++ c.text = p := by
  rw [propositions, List.mem_map, Prod.exists]
  exact exists₂_congr fun x c => and_congr_left fun _ => FinMap.mem_toList

theorem binding_mem_propositions {m : Memory} {x : String} {c : Cell} :
    x ++ " = " ++ c.text ∈ m.propositions ↔ m.get? x = some c := by
  rw [mem_propositions]
  constructor
  · rintro ⟨y, d, hget, heq⟩
    obtain ⟨rfl, rfl⟩ := binding_injective heq
    exact hget
  · exact fun hget => ⟨x, c, hget, rfl⟩

end Memory

end OmegaCheck
