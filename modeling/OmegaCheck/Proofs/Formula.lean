import OmegaCheck.Formula
import OmegaCheck.Proofs.Program.Lexing

/-!
# Unique reading of formulas

A formula can be read off its text up to the nesting of its conjunctions. The text is read from the
front: an operand ends at a blank or at a closing parenthesis that belongs to what is around it, and
the sign `()` is told from an opening parenthesis by the character that follows. Between operands
there is one of two separators, and only conjunctions are written without parentheses in each other.
-/

namespace OmegaCheck.Formula

variable {P : Type} {atomText : P → String}

mutual
/-- The formula with every chain of conjunctions nested to the left. -/
def nested : Formula P → Formula P
  | atom p => atom p
  | true => true
  | not f => not f.nested
  | and f g => attach f.nested g
  | next f => next f.nested
  | holdsUntil f g => holdsUntil f.nested g.nested

/-- The conjunction of `f`, which is nested already, and a formula that is not. -/
def attach (f : Formula P) : Formula P → Formula P
  | atom p => and f (atom p)
  | true => and f true
  | not g => and f (not g.nested)
  | and g h => attach (attach f g) h
  | next g => and f (next g.nested)
  | holdsUntil g h => and f (holdsUntil g.nested h.nested)
end

example (p q r s : P) :
    (and (atom p) (not (and (atom q) (and (atom r) (atom s))))).nested =
      and (atom p) (not (and (and (atom q) (atom r)) (atom s))) := rfl

/-- The formulas that a chain of conjunctions joins. -/
def conjuncts : Formula P → List (Formula P)
  | and f g => f.conjuncts ++ g.conjuncts
  | f => [f]

theorem conjuncts_of_shape {f : Formula P} (h : f.shape ≠ .conjunction) : f.conjuncts = [f] := by
  cases f with
  | and f g => exact absurd rfl h
  | _ => rfl

theorem exists_conjuncts_eq_cons (f : Formula P) : ∃ c cs, f.conjuncts = c :: cs := by
  induction f with
  | and f g ihf ihg =>
    obtain ⟨c, cs, hf⟩ := ihf
    exact ⟨c, cs ++ g.conjuncts, by rw [conjuncts, hf, List.cons_append]⟩
  | _ => exact ⟨_, [], rfl⟩

theorem attach_eq_foldl (f g : Formula P) :
    attach f g = (g.conjuncts.map nested).foldl and f := by
  induction g generalizing f with
  | and g h ihg ihh => rw [attach, ihh, ihg, conjuncts, List.map_append, List.foldl_append]
  | _ => simp [attach, conjuncts, nested]

theorem nested_eq_foldl {f c : Formula P} {cs : List (Formula P)} (h : f.conjuncts = c :: cs) :
    f.nested = (cs.map nested).foldl and c.nested := by
  induction f generalizing c cs with
  | and f g ihf ihg =>
    obtain ⟨d, ds, hf⟩ := exists_conjuncts_eq_cons f
    rw [conjuncts, hf, List.cons_append, List.cons.injEq] at h
    obtain ⟨rfl, rfl⟩ := h
    rw [nested, attach_eq_foldl, ihf hf, List.map_append, List.foldl_append]
  | _ =>
    obtain ⟨rfl, rfl⟩ := List.cons.inj h
    rfl

/-- The text of a formula in a chain of conjunctions. -/
def conjunctText (atomText : P → String) (f : Formula P) : String :=
  operandText (f.shape = .temporal) (f.text atomText)

theorem text_attach_of_shape {f : Formula P} (hf : f.shape ≠ .conjunction)
    (hnested : f.nested.shape = f.shape ∧ f.nested.text atomText = f.text atomText)
    (h : Formula P) : (attach h f).shape = .conjunction ∧ (attach h f).text atomText =
      h.conjunctText atomText ++ " /\\ " ++ f.conjunctText atomText := by
  rw [attach_eq_foldl, conjuncts_of_shape hf]
  refine ⟨rfl, ?_⟩
  rw [conjunctText, conjunctText, ← hnested.1, ← hnested.2]
  rfl

theorem text_nested_and_attach (f : Formula P) :
    (f.nested.shape = f.shape ∧ f.nested.text atomText = f.text atomText) ∧
      ∀ h, (attach h f).shape = .conjunction ∧ (attach h f).text atomText =
        h.conjunctText atomText ++ " /\\ " ++ f.conjunctText atomText := by
  induction f with
  | atom p => exact ⟨⟨rfl, rfl⟩, text_attach_of_shape (by simp [shape]) ⟨rfl, rfl⟩⟩
  | true => exact ⟨⟨rfl, rfl⟩, text_attach_of_shape (by simp [shape]) ⟨rfl, rfl⟩⟩
  | not f ih =>
    have htext : (not f).nested.text atomText = (not f).text atomText := by
      rw [nested, text, ih.1.1, ih.1.2, text]
    exact ⟨⟨rfl, htext⟩, text_attach_of_shape (by simp [shape]) ⟨rfl, htext⟩⟩
  | next f ih =>
    have htext : (next f).nested.text atomText = (next f).text atomText := by
      rw [nested, text, ih.1.1, ih.1.2, text]
    exact ⟨⟨rfl, htext⟩, text_attach_of_shape (by simp [shape]) ⟨rfl, htext⟩⟩
  | holdsUntil f g ihf ihg =>
    have htext : (holdsUntil f g).nested.text atomText = (holdsUntil f g).text atomText := by
      rw [nested, text, ihf.1.1, ihf.1.2, ihg.1.1, ihg.1.2, text]
    exact ⟨⟨rfl, htext⟩, text_attach_of_shape (by simp [shape]) ⟨rfl, htext⟩⟩
  | and f g ihf ihg =>
    have hattach : ∀ h, (attach h (and f g)).text atomText =
        h.conjunctText atomText ++ " /\\ " ++ (and f g).conjunctText atomText := by
      intro h
      rw [attach, (ihg.2 _).2, conjunctText, (ihf.2 h).1, (ihf.2 h).2]
      simp [conjunctText, operandText, shape, text, String.append_assoc]
    refine ⟨⟨(ihg.2 _).1, ?_⟩, fun h => ⟨(ihg.2 _).1, hattach h⟩⟩
    rw [nested, (ihg.2 _).2, conjunctText, ihf.1.1, ihf.1.2]
    rfl

section Characters

/-- The text of a formula as an operand of anything but a conjunction. -/
def operandChars (atomText : P → String) (f : Formula P) : List Char :=
  (operandText (f.shape ≠ .closed) (f.text atomText)).toList

@[simp] theorem operandChars_not (f : Formula P) :
    operandChars atomText (not f) = '~' :: operandChars atomText f := by
  simp [operandChars, shape, text, operandText]

@[simp] theorem operandChars_next (f : Formula P) :
    operandChars atomText (next f) = '(' :: ')' :: operandChars atomText f := by
  simp [operandChars, shape, text, operandText]

theorem operandChars_of_shape {f : Formula P} (h : f.shape ≠ .closed) :
    operandChars atomText f = '(' :: ((f.text atomText).toList ++ [')']) := by
  simp [operandChars, h, operandText]

/-- The conjuncts behind the first one. -/
def tailChars (atomText : P → String) : List (Formula P) → List Char
  | [] => []
  | c :: cs => [' ', '/', '\\', ' '] ++ operandChars atomText c ++ tailChars atomText cs

theorem tailChars_append (cs ds : List (Formula P)) :
    tailChars atomText (cs ++ ds) = tailChars atomText cs ++ tailChars atomText ds := by
  induction cs with
  | nil => rfl
  | cons c cs ih => simp [tailChars, ih]

theorem toList_conjunctText {f c : Formula P} {cs : List (Formula P)}
    (h : f.conjuncts = c :: cs) :
    (f.conjunctText atomText).toList = operandChars atomText c ++ tailChars atomText cs := by
  induction f generalizing c cs with
  | and f g ihf ihg =>
    obtain ⟨d, ds, hf⟩ := exists_conjuncts_eq_cons f
    obtain ⟨e, es, hg⟩ := exists_conjuncts_eq_cons g
    rw [conjuncts, hf, hg, List.cons_append, List.cons.injEq] at h
    obtain ⟨rfl, rfl⟩ := h
    have htext : (and f g).conjunctText atomText =
        f.conjunctText atomText ++ " /\\ " ++ g.conjunctText atomText := rfl
    rw [htext, String.toList_append, String.toList_append, ihf hf, ihg hg, tailChars_append]
    simp [tailChars]
  | _ =>
    obtain ⟨rfl, rfl⟩ := List.cons.inj h
    simp [conjunctText, operandChars, shape, tailChars]

theorem toList_text_of_shape {f c : Formula P} {cs : List (Formula P)}
    (hf : f.shape ≠ .temporal) (h : f.conjuncts = c :: cs) :
    (f.text atomText).toList = operandChars atomText c ++ tailChars atomText cs := by
  rw [← toList_conjunctText h, conjunctText, operandText, if_neg (by simpa using hf)]

theorem toList_text_holdsUntil (f g : Formula P) :
    ((holdsUntil f g).text atomText).toList =
      operandChars atomText f ++ ' ' :: 'U' :: ' ' :: operandChars atomText g := by
  simp [text, operandChars]

end Characters

theorem mem_atoms_of_mem_conjuncts {f c : Formula P} (hc : c ∈ f.conjuncts) {p : P}
    (hp : p ∈ c.atoms) : p ∈ f.atoms := by
  induction f with
  | and f g ihf ihg =>
    rw [atoms, List.mem_append]
    rw [conjuncts, List.mem_append] at hc
    exact hc.imp ihf ihg
  | _ =>
    cases List.mem_singleton.mp hc
    exact hp

section Ends

variable {rest rest' : List Char} {s t : String}

/-- What may follow an operand. -/
def Stops (rest : List Char) : Prop := ∀ c ∈ rest.head?, c = ' ' ∨ c = ')'

/-- What may follow a formula. -/
def Closes (rest : List Char) : Prop := ∀ c ∈ rest.head?, c = ')'

theorem Closes.stops (h : Closes rest) : Stops rest :=
  fun c hc => .inr (h c hc)

theorem stops_blank (rest : List Char) : Stops (' ' :: rest) := by
  rintro c ⟨⟩
  exact .inl rfl

theorem not_closes_blank (rest : List Char) : ¬ Closes (' ' :: rest) := by
  intro h
  cases h ' ' rfl

theorem closes_cons (rest : List Char) : Closes (')' :: rest) := by
  rintro c ⟨⟩
  rfl

theorem closes_nil : Closes [] := by
  rintro c ⟨⟩

theorem stops_tailChars (cs : List (Formula P)) (h : Closes rest) :
    Stops (tailChars atomText cs ++ rest) := by
  cases cs with
  | nil => exact h.stops
  | cons c cs => exact stops_blank _

/-- A text without blanks, parentheses and tildes. -/
def IsPlain (s : String) : Prop :=
  ∀ c ∈ s.toList, c ≠ ' ' ∧ c ≠ '(' ∧ c ≠ ')' ∧ c ≠ '~'

theorem isPlain_true : IsPlain "true" := by
  simp [IsPlain]

theorem IsPlain.unique (hs : IsPlain s) (ht : IsPlain t) (hrest : Stops rest)
    (hrest' : Stops rest') (h : s.toList ++ rest = t.toList ++ rest') : s = t ∧ rest = rest' := by
  have htake : ∀ {u : String} {rest : List Char}, IsPlain u → Stops rest →
      (u.toList ++ rest).takeWhile (fun c => c ≠ ' ' ∧ c ≠ ')') = u.toList := by
    intro u rest hu hrest
    apply Lexeme.takeWhile_append_of_stop
    · intro c hc
      simp [(hu c hc).1, (hu c hc).2.2.1]
    · intro c hc
      rcases hrest c hc with rfl | rfl <;> simp
  have hword : s.toList = t.toList := by
    rw [← htake hs hrest, h, htake ht hrest']
  rw [hword, List.append_cancel_left_eq] at h
  exact ⟨String.toList_injective hword, h⟩

end Ends

/-- The atoms have different texts, each of them one word and not the text of the constant. -/
structure Legible (atomText : P → String) (ps : List P) : Prop where
  plain : ∀ p ∈ ps, IsPlain (atomText p)
  ne_true : ∀ p ∈ ps, atomText p ≠ "true"
  distinct : ∀ p ∈ ps, ∀ q ∈ ps, atomText p = atomText q → p = q

section Leads

variable {f g : Formula P} {rest : List Char}

theorem head?_operandText_ne {b : Bool} {s : String}
    (h : ∀ {rest : List Char}, rest.head? ≠ some ')' → (s.toList ++ rest).head? ≠ some ')')
    (hrest : rest.head? ≠ some ')') : ((operandText b s).toList ++ rest).head? ≠ some ')' := by
  cases b with
  | true => simp [operandText]
  | false => exact h hrest

/-- A formula never begins with a closing parenthesis. -/
theorem head?_text_ne (hf : ∀ p ∈ f.atoms, IsPlain (atomText p)) (hrest : rest.head? ≠ some ')') :
    ((f.text atomText).toList ++ rest).head? ≠ some ')' := by
  induction f generalizing rest with
  | atom p =>
    rw [text]
    cases hchars : (atomText p).toList with
    | nil => exact hrest
    | cons c cs =>
      have hc := hf p (by simp [atoms]) c (by simp [hchars])
      simpa using hc.2.2.1
  | true => simp [text]
  | not f ih => simp [text]
  | next f ih => simp [text]
  | and f g ihf ihg =>
    simp only [text, String.toList_append, List.append_assoc]
    exact head?_operandText_ne (ihf fun p hp => hf p (by simp [atoms, hp])) (by simp)
  | holdsUntil f g ihf ihg =>
    simp only [text, String.toList_append, List.append_assoc]
    exact head?_operandText_ne (ihf fun p hp => hf p (by simp [atoms, hp])) (by simp)

theorem head?_text_ne_of_shape (hf : ∀ p ∈ f.atoms, IsPlain (atomText p))
    (hshape : f.shape ≠ .closed) : ((f.text atomText).toList ++ rest).head? ≠ some ')' := by
  cases f with
  | and f g =>
    simp only [text, String.toList_append, List.append_assoc]
    exact head?_operandText_ne (head?_text_ne fun p hp => hf p (by simp [atoms, hp])) (by simp)
  | holdsUntil f g =>
    simp only [text, String.toList_append, List.append_assoc]
    exact head?_operandText_ne (head?_text_ne fun p hp => hf p (by simp [atoms, hp])) (by simp)
  | _ => exact absurd rfl hshape

/-- What an operand can begin with. -/
inductive Lead where
  | word
  | tilde
  | circle
  | parenthesis
  deriving DecidableEq

def Lead.ofChars : List Char → Lead
  | '~' :: _ => tilde
  | '(' :: ')' :: _ => circle
  | '(' :: _ => parenthesis
  | _ => word

def lead : Formula P → Lead
  | atom _ | true => .word
  | not _ => .tilde
  | next _ => .circle
  | and _ _ | holdsUntil _ _ => .parenthesis

theorem IsPlain.ofChars_append {s : String} (hs : IsPlain s) (hrest : Stops rest) :
    Lead.ofChars (s.toList ++ rest) = .word := by
  have hhead : ∀ c ∈ (s.toList ++ rest).head?, c ≠ '~' ∧ c ≠ '(' := by
    intro c hc
    cases hchars : s.toList with
    | nil =>
      rw [hchars] at hc
      rcases hrest c hc with rfl | rfl <;> simp
    | cons d ds =>
      rw [hchars] at hc
      cases hc
      have hd := hs c (by simp [hchars])
      exact ⟨hd.2.2.2, hd.2.1⟩
  unfold Lead.ofChars
  split
  · next h => exact absurd rfl (hhead '~' (by rw [h]; rfl)).1
  · next h => exact absurd rfl (hhead '(' (by rw [h]; rfl)).2
  · next h => exact absurd rfl (hhead '(' (by rw [h]; rfl)).2
  · rfl

theorem Lead.ofChars_parenthesis {cs : List Char} (h : cs.head? ≠ some ')') :
    Lead.ofChars ('(' :: cs) = .parenthesis := by
  cases cs with
  | nil => rfl
  | cons c cs =>
    unfold Lead.ofChars
    split
    · next heq => cases heq
    · next heq =>
      cases heq
      exact absurd rfl h
    · rfl
    · next heq => exact absurd rfl (heq _)

theorem ofChars_operandChars (hf : ∀ p ∈ f.atoms, IsPlain (atomText p)) (hrest : Stops rest) :
    Lead.ofChars (operandChars atomText f ++ rest) = f.lead := by
  cases f with
  | atom p => exact (hf p (by simp [atoms])).ofChars_append hrest
  | true => exact isPlain_true.ofChars_append hrest
  | not f =>
    rw [operandChars_not]
    rfl
  | next f =>
    rw [operandChars_next]
    rfl
  | and f g =>
    rw [operandChars_of_shape (by simp [shape]), List.cons_append, List.append_assoc]
    exact Lead.ofChars_parenthesis (head?_text_ne_of_shape hf (by simp [shape]))
  | holdsUntil f g =>
    rw [operandChars_of_shape (by simp [shape]), List.cons_append, List.append_assoc]
    exact Lead.ofChars_parenthesis (head?_text_ne_of_shape hf (by simp [shape]))

end Leads

section Reading

variable {ps : List P} {f g : Formula P} {rest rest' : List Char}

/-- In front of what may follow it, the operand is found from its text up to nesting. -/
def IsFound (atomText : P → String) (ps : List P) (f : Formula P) : Prop :=
  ∀ g rest rest', (∀ p ∈ g.atoms, p ∈ ps) → Stops rest → Stops rest' →
    operandChars atomText f ++ rest = operandChars atomText g ++ rest' →
      f.nested = g.nested ∧ rest = rest'

theorem lead_eq (hps : Legible atomText ps) (hf : ∀ p ∈ f.atoms, p ∈ ps)
    (hg : ∀ p ∈ g.atoms, p ∈ ps) (hrest : Stops rest) (hrest' : Stops rest')
    (h : operandChars atomText f ++ rest = operandChars atomText g ++ rest') :
    f.lead = g.lead := by
  rw [← ofChars_operandChars (fun p hp => hps.plain p (hf p hp)) hrest, h,
    ofChars_operandChars (fun p hp => hps.plain p (hg p hp)) hrest']

theorem isFound_atom (hps : Legible atomText ps) {p : P} (hp : p ∈ ps) :
    IsFound atomText ps (atom p) := by
  intro g rest rest' hg hrest hrest' h
  have hlead := lead_eq hps (by simpa [atoms] using hp) hg hrest hrest' h
  cases g with
  | atom q =>
    have hq : q ∈ ps := hg q (by simp [atoms])
    obtain ⟨htext, rfl⟩ := (hps.plain p hp).unique (hps.plain q hq) hrest hrest' h
    rw [hps.distinct p hp q hq htext]
    exact ⟨rfl, rfl⟩
  | true =>
    obtain ⟨htext, _⟩ := (hps.plain p hp).unique isPlain_true hrest hrest' h
    exact absurd htext (hps.ne_true p hp)
  | _ => cases hlead

theorem isFound_true (hps : Legible atomText ps) : IsFound atomText ps true := by
  intro g rest rest' hg hrest hrest' h
  have hlead := lead_eq hps (by simp [atoms]) hg hrest hrest' h
  cases g with
  | atom q =>
    have hq : q ∈ ps := hg q (by simp [atoms])
    obtain ⟨htext, _⟩ := isPlain_true.unique (hps.plain q hq) hrest hrest' h
    exact absurd htext.symm (hps.ne_true q hq)
  | true => exact ⟨rfl, List.append_cancel_left h⟩
  | _ => cases hlead

theorem isFound_not (hps : Legible atomText ps) (hf : ∀ p ∈ (not f).atoms, p ∈ ps)
    (ih : IsFound atomText ps f) : IsFound atomText ps (not f) := by
  intro g rest rest' hg hrest hrest' h
  have hlead := lead_eq hps hf hg hrest hrest' h
  cases g with
  | not g =>
    simp only [operandChars_not, List.cons_append, List.cons.injEq, true_and] at h
    obtain ⟨hnested, rfl⟩ := ih g rest rest' hg hrest hrest' h
    exact ⟨congrArg not hnested, rfl⟩
  | _ => cases hlead

theorem isFound_next (hps : Legible atomText ps) (hf : ∀ p ∈ (next f).atoms, p ∈ ps)
    (ih : IsFound atomText ps f) : IsFound atomText ps (next f) := by
  intro g rest rest' hg hrest hrest' h
  have hlead := lead_eq hps hf hg hrest hrest' h
  cases g with
  | next g =>
    simp only [operandChars_next, List.cons_append, List.cons.injEq, true_and] at h
    obtain ⟨hnested, rfl⟩ := ih g rest rest' hg hrest hrest' h
    exact ⟨congrArg next hnested, rfl⟩
  | _ => cases hlead

theorem map_nested_eq_of_tailChars {cs ds : List (Formula P)}
    (hcs : ∀ c ∈ cs, IsFound atomText ps c) (hds : ∀ d ∈ ds, ∀ p ∈ d.atoms, p ∈ ps)
    (hrest : Closes rest) (hrest' : Closes rest')
    (h : tailChars atomText cs ++ rest = tailChars atomText ds ++ rest') :
    cs.map nested = ds.map nested ∧ rest = rest' := by
  induction cs generalizing ds with
  | nil =>
    cases ds with
    | nil => exact ⟨rfl, h⟩
    | cons d ds =>
      have hblank : Closes (' ' :: _) := Eq.subst (motive := Closes) h hrest
      exact absurd hblank (not_closes_blank _)
  | cons c cs ih =>
    cases ds with
    | nil =>
      have hblank : Closes (' ' :: _) := Eq.subst (motive := Closes) h.symm hrest'
      exact absurd hblank (not_closes_blank _)
    | cons d ds =>
      rw [List.forall_mem_cons] at hcs hds
      simp only [tailChars, List.append_assoc, List.append_cancel_left_eq] at h
      obtain ⟨hhead, htail⟩ := hcs.1 d _ _ hds.1 (stops_tailChars cs hrest)
        (stops_tailChars ds hrest') h
      obtain ⟨hnested, rfl⟩ := ih hcs.2 hds.2 htail
      exact ⟨by rw [List.map_cons, List.map_cons, hhead, hnested], rfl⟩

/-- The separators differ in their second character. -/
theorem until_ne_tailChars (cs : List (Formula P)) (more : List Char) (hrest : Closes rest) :
    ' ' :: 'U' :: more ≠ tailChars atomText cs ++ rest := by
  intro h
  cases cs with
  | nil =>
    have hblank : Closes (' ' :: _) := Eq.subst (motive := Closes) h.symm hrest
    exact not_closes_blank _ hblank
  | cons c cs => simp [tailChars] at h

theorem exists_of_shape_temporal (h : f.shape = .temporal) : ∃ a b, f = holdsUntil a b := by
  cases f with
  | holdsUntil a b => exact ⟨a, b, rfl⟩
  | _ => cases h

/-- The operands that stand in the text of a formula without parentheses around it. -/
def operands : Formula P → List (Formula P)
  | holdsUntil f g => [f, g]
  | f => f.conjuncts

theorem operands_of_shape (hf : f.shape ≠ .temporal) : f.operands = f.conjuncts := by
  cases f with
  | holdsUntil a b => exact absurd rfl hf
  | _ => rfl

theorem nested_eq_of_text_append (hf : ∀ c ∈ f.operands, IsFound atomText ps c)
    (hg : ∀ p ∈ g.atoms, p ∈ ps) (hrest : Closes rest) (hrest' : Closes rest')
    (h : (f.text atomText).toList ++ rest = (g.text atomText).toList ++ rest') :
    f.nested = g.nested ∧ rest = rest' := by
  -- The first operands agree in every case, and what follows them tells the separators apart.
  by_cases hshape : f.shape = .temporal <;> by_cases hshape' : g.shape = .temporal
  · obtain ⟨a, b, rfl⟩ := exists_of_shape_temporal hshape
    obtain ⟨a', b', rfl⟩ := exists_of_shape_temporal hshape'
    simp only [toList_text_holdsUntil, List.append_assoc, List.cons_append] at h
    obtain ⟨hleft, h⟩ := hf a (by simp [operands]) a' _ _ (fun p hp => hg p (by simp [atoms, hp]))
      (stops_blank _) (stops_blank _) h
    simp only [List.cons.injEq, true_and] at h
    obtain ⟨hright, rfl⟩ := hf b (by simp [operands]) b' _ _
      (fun p hp => hg p (by simp [atoms, hp])) hrest.stops hrest'.stops h
    exact ⟨by rw [nested, nested, hleft, hright], rfl⟩
  · obtain ⟨a, b, rfl⟩ := exists_of_shape_temporal hshape
    obtain ⟨d, ds, hds⟩ := exists_conjuncts_eq_cons g
    have hd : ∀ p ∈ d.atoms, p ∈ ps := fun p hp =>
      hg p (mem_atoms_of_mem_conjuncts (by simp [hds]) hp)
    simp only [toList_text_holdsUntil, toList_text_of_shape hshape' hds, List.append_assoc,
      List.cons_append] at h
    obtain ⟨_, h⟩ := hf a (by simp [operands]) d _ _ hd (stops_blank _)
      (stops_tailChars ds hrest') h
    exact absurd h (until_ne_tailChars ds _ hrest')
  · obtain ⟨c, cs, hcs⟩ := exists_conjuncts_eq_cons f
    obtain ⟨a, b, rfl⟩ := exists_of_shape_temporal hshape'
    rw [operands_of_shape hshape, hcs] at hf
    simp only [toList_text_holdsUntil, toList_text_of_shape hshape hcs, List.append_assoc,
      List.cons_append] at h
    obtain ⟨_, h⟩ := hf c List.mem_cons_self a _ _ (fun p hp => hg p (by simp [atoms, hp]))
      (stops_tailChars cs hrest) (stops_blank _) h
    exact absurd h.symm (until_ne_tailChars cs _ hrest)
  · obtain ⟨c, cs, hcs⟩ := exists_conjuncts_eq_cons f
    obtain ⟨d, ds, hds⟩ := exists_conjuncts_eq_cons g
    have hatoms : ∀ e ∈ d :: ds, ∀ p ∈ e.atoms, p ∈ ps := fun e he p hp =>
      hg p (mem_atoms_of_mem_conjuncts (hds ▸ he) hp)
    rw [operands_of_shape hshape, hcs, List.forall_mem_cons] at hf
    rw [List.forall_mem_cons] at hatoms
    simp only [toList_text_of_shape hshape hcs, toList_text_of_shape hshape' hds,
      List.append_assoc] at h
    obtain ⟨hhead, h⟩ := hf.1 d _ _ hatoms.1 (stops_tailChars cs hrest)
      (stops_tailChars ds hrest') h
    obtain ⟨htail, rfl⟩ := map_nested_eq_of_tailChars hf.2 hatoms.2 hrest hrest' h
    exact ⟨by rw [nested_eq_foldl hcs, nested_eq_foldl hds, hhead, htail], rfl⟩

theorem isFound_of_operands (hps : Legible atomText ps) (hatoms : ∀ p ∈ f.atoms, p ∈ ps)
    (hshape : f.shape ≠ .closed) (hf : ∀ c ∈ f.operands, IsFound atomText ps c) :
    IsFound atomText ps f := by
  intro g rest rest' hg hrest hrest' h
  have hlead := lead_eq hps hatoms hg hrest hrest' h
  have hshape' : g.shape ≠ .closed := by
    cases f <;> cases g <;> simp_all [lead, shape]
  simp only [operandChars_of_shape hshape, operandChars_of_shape hshape', List.cons_append,
    List.append_assoc, List.cons.injEq, true_and, List.nil_append] at h
  obtain ⟨hnested, h⟩ := nested_eq_of_text_append hf hg (closes_cons rest) (closes_cons rest') h
  exact ⟨hnested, (List.cons.inj h).2⟩

theorem isFound_conjuncts (hps : Legible atomText ps) (hf : ∀ p ∈ f.atoms, p ∈ ps) :
    IsFound atomText ps f ∧ ∀ c ∈ f.conjuncts, IsFound atomText ps c := by
  -- The conjuncts are carried along: a chain inside a chain has no parentheses of its own.
  induction f with
  | atom p =>
    have h := isFound_atom hps (hf p (by simp [atoms]))
    exact ⟨h, by simpa [conjuncts] using h⟩
  | true =>
    have h := isFound_true hps
    exact ⟨h, by simpa [conjuncts] using h⟩
  | not f ih =>
    have h := isFound_not hps hf (ih hf).1
    exact ⟨h, by simpa [conjuncts] using h⟩
  | next f ih =>
    have h := isFound_next hps hf (ih hf).1
    exact ⟨h, by simpa [conjuncts] using h⟩
  | and f g ihf ihg =>
    have hall : ∀ c ∈ (and f g).conjuncts, IsFound atomText ps c := by
      intro c hc
      rw [conjuncts, List.mem_append] at hc
      exact hc.elim ((ihf fun p hp => hf p (by simp [atoms, hp])).2 c)
        ((ihg fun p hp => hf p (by simp [atoms, hp])).2 c)
    exact ⟨isFound_of_operands hps hf (by simp [shape]) hall, hall⟩
  | holdsUntil f g ihf ihg =>
    have h : IsFound atomText ps (holdsUntil f g) := by
      apply isFound_of_operands hps hf (by simp [shape])
      simp only [operands, List.forall_mem_cons]
      exact ⟨(ihf fun p hp => hf p (by simp [atoms, hp])).1,
        (ihg fun p hp => hf p (by simp [atoms, hp])).1, by simp⟩
    exact ⟨h, by simpa [conjuncts] using h⟩

theorem isFound_operands (hps : Legible atomText ps) (hf : ∀ p ∈ f.atoms, p ∈ ps) :
    ∀ c ∈ f.operands, IsFound atomText ps c := by
  cases f with
  | holdsUntil a b =>
    simp only [operands, List.forall_mem_cons]
    exact ⟨(isFound_conjuncts hps fun p hp => hf p (by simp [atoms, hp])).1,
      (isFound_conjuncts hps fun p hp => hf p (by simp [atoms, hp])).1, by simp⟩
  | _ => exact (isFound_conjuncts hps hf).2

end Reading

/-- Two formulas have one text exactly when they differ in the nesting of conjunctions only. No word
but `true` has to be kept out of the atoms, and slashes, backslashes and the letter of the until
operator may stand in them, since every separator begins with a blank. -/
theorem text_eq_text_iff_nested_eq {f g : Formula P} (h : Legible atomText (f.atoms ++ g.atoms)) :
    f.text atomText = g.text atomText ↔ f.nested = g.nested := by
  constructor
  · intro htext
    have hf := isFound_operands h fun p hp => List.mem_append_left g.atoms hp
    have hchars := congrArg (fun s => s.toList ++ []) htext
    exact (nested_eq_of_text_append hf (fun p hp => List.mem_append_right f.atoms hp) closes_nil
      closes_nil hchars).1
  · intro hnested
    rw [← (text_nested_and_attach f).1.2, hnested, (text_nested_and_attach g).1.2]

theorem text_eq_text_iff_nested_eq_of_chains :
    let f : Formula String :=
      holdsUntil (and (atom "a") (and (atom "b") (next (atom "a")))) (not (atom "U"))
    let g : Formula String :=
      holdsUntil (and (and (atom "a") (atom "b")) (next (atom "a"))) (not (atom "U"))
    Legible id (f.atoms ++ g.atoms) ∧ f ≠ g ∧ f.text id = g.text id := by
  intro f g
  have h : Legible id (f.atoms ++ g.atoms) :=
    ⟨by simp [f, g, atoms, IsPlain], by simp [f, g, atoms], fun _ _ _ _ h => h⟩
  exact ⟨h, by decide, (text_eq_text_iff_nested_eq h).mpr rfl⟩

end OmegaCheck.Formula
