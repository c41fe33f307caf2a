import OmegaCheck.Proofs.Program.Lexing

/-!
# The tokens of printed programs

Every expression, action and statement with well-formed names prints as text that is cut into a
known list of tokens. The lists follow the recursion of the text, so what is read from a printed
program can be studied on tokens alone.
-/

namespace OmegaCheck

open Lexeme

namespace Lexeme

/-- The characters that begin a printed expression, action or statement. -/
def opensPhrase (c : Char) : Bool :=
  startsWord c || c.isDigit || c = '-' || c = '!' || c = '('

/-- The text begins like a phrase. -/
def Opens (cs : List Char) : Prop := ∃ c ∈ cs.head?, opensPhrase c = true

theorem Opens.append {cs : List Char} (h : Opens cs) (ds : List Char) : Opens (cs ++ ds) := by
  obtain ⟨c, hc, hopen⟩ := h
  exact ⟨c, by rw [List.head?_append, hc]; rfl, hopen⟩

theorem Opens.of_mem_head? {cs : List Char} (h : Opens cs) {d : Char} (hd : d ∈ cs.head?) :
    opensPhrase d = true := by
  obtain ⟨c, hc, hopen⟩ := h
  cases hc.symm.trans hd
  exact hopen

theorem Opens.not_isBlank {cs : List Char} (h : Opens cs) : ¬ cs.all Text.isBlank = true := by
  obtain ⟨c, hc, hopen⟩ := h
  have hmem : c ∈ cs := List.mem_of_mem_head? hc
  intro hall
  have hblank := List.all_eq_true.1 hall c hmem
  simp only [opensPhrase, Bool.or_eq_true, decide_eq_true_eq] at hopen
  rcases hopen with (((hword | hdigit) | rfl) | rfl) | rfl
  · exact not_isBlank_of_startsWord hword hblank
  · exact Text.not_isBlank_of_isDigit hdigit hblank
  all_goals exact absurd hblank (by decide)

end Lexeme

/-- The text of a phrase, cut into these tokens in front of anything that ends a word. -/
structure Prints (text : String) (ts : List Token) : Prop where
  opens : Opens text.toList
  lexes : ∀ {rest : List Char} {us : List Token}, Boundary rest → Lexes rest us →
    Lexes (text.toList ++ rest) (ts ++ us)

/-- A text between two phrases, cut into one token whatever follows. -/
structure Separates (text : String) (t : Token) : Prop where
  boundary : ∀ rest : List Char, Boundary (text.toList ++ rest)
  lexes : ∀ {rest : List Char} {us : List Token}, Lexes rest us →
    Lexes (text.toList ++ rest) (t :: us)

/-- A text that may follow a phrase, cut into these tokens. -/
structure Trails (text : String) (ts : List Token) : Prop where
  boundary : ∀ {rest : List Char}, Boundary rest → Boundary (text.toList ++ rest)
  lexes : ∀ {rest : List Char} {us : List Token}, Boundary rest → Lexes rest us →
    Lexes (text.toList ++ rest) (ts ++ us)

section Separates

variable {c d : Char} {t : Token}

theorem separates_sign (hc : isSign c = true) (hword : continuesWord c = false)
    (hone : Token.ofOne? c = some t) (htwo : ∀ d, Token.ofTwo? c d = none) (hslash : c ≠ '/') :
    Separates (String.ofList [c]) t where
  boundary rest := by
    rw [String.toList_ofList]
    exact boundary_cons hword
  lexes h := by
    rw [String.toList_ofList]
    exact Lexes.sign hc hone (fun d _ => ⟨htwo d, fun hc => absurd hc hslash⟩) h

theorem separates_twoSigns (hc : isSign c = true) (htwo : Token.ofTwo? c d = some t) :
    Separates (String.ofList [' ', c, d, ' ']) t where
  boundary rest := by
    rw [String.toList_ofList]
    exact boundary_cons (by decide)
  lexes h := by
    rw [String.toList_ofList]
    exact (Lexes.twoSigns hc htwo h.blank).blank

theorem Separates.spaced {w : String} (h : Separates w t) : Separates (w ++ " ") t where
  boundary rest := by
    simpa using h.boundary (' ' :: rest)
  lexes hus := by
    simpa using h.lexes hus.blank

theorem separates_op (o : BinOp) : Separates (" " ++ o.symbol ++ " ") (.op o) where
  boundary rest := by
    simpa using boundary_cons (c := ' ') (by decide)
  lexes hus := by
    simpa using (lexes_op o hus).blank

end Separates

theorem Trails.append {s u : String} {ts us : List Token} (h : Trails s ts) (k : Trails u us) :
    Trails (s ++ u) (ts ++ us) where
  boundary hrest := by
    rw [String.toList_append, List.append_assoc]
    exact h.boundary (k.boundary hrest)
  lexes hrest hus := by
    simpa using h.lexes (k.boundary hrest) (k.lexes hrest hus)

namespace Prints

variable {s u w : String} {t : Token} {ts us : List Token}

theorem lexes_all (h : Prints s ts) : Lexes s.toList ts := by
  simpa using h.lexes boundary_nil lexes_nil

theorem append (h : Prints s ts) (k : Trails u us) : Prints (s ++ u) (ts ++ us) where
  opens := by
    rw [String.toList_append]
    exact h.opens.append _
  lexes hrest hus := by
    simpa using h.lexes (k.boundary hrest) (k.lexes hrest hus)

theorem after (h : Prints s ts) (hw : Separates w t) : Trails (w ++ s) (t :: ts) where
  boundary _ := by
    rw [String.toList_append, List.append_assoc]
    exact hw.boundary _
  lexes hrest hus := by
    simpa using hw.lexes (h.lexes hrest hus)

theorem join (h : Prints s ts) (hw : Separates w t) (k : Prints u us) :
    Prints (s ++ w ++ u) (ts ++ t :: us) := by
  rw [String.append_assoc]
  exact h.append (k.after hw)

theorem spaced (h : Prints s ts) : Trails (" " ++ s) ts where
  boundary _ := by
    simpa using boundary_cons (c := ' ') (by decide)
  lexes hrest hus := by
    simpa using (h.lexes hrest hus).blank

/-- A sign in front of a phrase that does not complete it to a longer sign. -/
theorem signed {c : Char} (h : Prints s ts) (hc : isSign c = true) (hopen : opensPhrase c = true)
    (hone : Token.ofOne? c = some t)
    (htwo : ∀ d, opensPhrase d = true → Token.ofTwo? c d = none ∧ (c = '/' → d ≠ '/')) :
    Prints (String.ofList [c] ++ s) (t :: ts) where
  opens := ⟨c, by simp, hopen⟩
  lexes {rest us} hrest hus := by
    have hsign : Lexes (c :: (s.toList ++ rest)) (t :: (ts ++ us)) := by
      apply Lexes.sign hc hone _ (h.lexes hrest hus)
      intro d hd
      exact htwo d ((h.opens.append rest).of_mem_head? hd)
    simpa using hsign

theorem ne_of_opensPhrase {d : Char} (hd : opensPhrase d = true) : d ≠ '=' ∧ d ≠ '>' := by
  constructor
  · rintro rfl
    exact absurd hd (by decide)
  · rintro rfl
    exact absurd hd (by decide)

theorem minus (h : Prints s ts) : Prints ("-" ++ s) (.op .sub :: ts) :=
  h.signed (c := '-') (by decide) (by decide) rfl fun d hd => by
    simp [Token.ofTwo?, ne_of_opensPhrase hd]

theorem bang (h : Prints s ts) : Prints ("!" ++ s) (.bang :: ts) :=
  h.signed (c := '!') (by decide) (by decide) rfl fun d hd => by
    simp [Token.ofTwo?, ne_of_opensPhrase hd]

theorem trails_bang (h : Prints s ts) : Trails ("!" ++ s) (.bang :: ts) where
  boundary _ := by
    simpa using boundary_cons (c := '!') (by decide)
  lexes := h.bang.lexes

theorem paren (h : Prints s ts) :
    Prints ("(" ++ s ++ ")") (.leftParen :: (ts ++ [.rightParen])) := by
  have hclose : Separates ")" .rightParen :=
    separates_sign (by decide) (by decide) rfl (fun d => by simp [Token.ofTwo?]) (by decide)
  have hopen : Prints ("(" ++ s) (.leftParen :: ts) :=
    h.signed (c := '(') (by decide) (by decide) rfl fun d hd => by simp [Token.ofTwo?]
  exact hopen.append ⟨fun _ => hclose.boundary _, fun _ hus => hclose.lexes hus⟩

theorem binary (o : BinOp) (h : Prints s ts) (k : Prints u us) :
    Prints (s ++ " " ++ o.symbol ++ " " ++ u) (ts ++ .op o :: us) := by
  simpa only [String.append_assoc] using h.join (separates_op o) k

theorem sequence (h : Prints s ts) (k : Prints u us) :
    Prints (s ++ "; " ++ u) (ts ++ .semicolon :: us) := by
  have hsign : Separates ";" .semicolon :=
    separates_sign (by decide) (by decide) rfl (fun d => by simp [Token.ofTwo?]) (by decide)
  exact h.join hsign.spaced k

theorem word {c : Char} {cs : List Char} (hs : s.toList = c :: cs) (hc : startsWord c = true)
    (hcs : cs.all continuesWord = true) : Prints s [Token.ofWord s] where
  opens := ⟨c, by simp [hs], by simp [opensPhrase, hc]⟩
  lexes hrest hus := by
    have hword := Lexes.word hc (List.all_eq_true.1 hcs) hrest hus
    rwa [← hs, String.ofList_toList] at hword

theorem reserved (h : (s, t) ∈ Token.reserved) : Prints s [t] := by
  simp only [Token.reserved, List.mem_cons, Prod.mk.injEq, List.not_mem_nil, or_false] at h
  rcases h with ⟨rfl, rfl⟩ | ⟨rfl, rfl⟩ | ⟨rfl, rfl⟩ | ⟨rfl, rfl⟩ | ⟨rfl, rfl⟩ | ⟨rfl, rfl⟩ |
    ⟨rfl, rfl⟩ | ⟨rfl, rfl⟩
  all_goals exact word rfl (by decide) (by decide)

theorem number {n : Nat} (hn : n < literalLimit) : Prints n.repr [.int n] where
  opens := by
    rw [Nat.toList_repr]
    cases hdigits : Nat.toDigits 10 n with
    | nil => exact absurd hdigits Nat.toDigits_ne_nil
    | cons c cs =>
      have hc : c.isDigit = true :=
        Nat.isDigit_of_mem_toDigits (by decide) (by decide) (hdigits ▸ List.mem_cons_self)
      exact ⟨c, rfl, by simp [opensPhrase, hc]⟩
  lexes hrest hus := Lexes.number hn hrest hus

end Prints

/-- The words that may name a variable or a channel. -/
def isIdentifier (name : String) : Bool :=
  match name.toList with
  | [] => false
  | c :: cs =>
    startsWord c && cs.all continuesWord && (Token.reserved.lookup name).isNone

theorem Prints.identifier {name : String} (h : isIdentifier name = true) :
    Prints name [.ident name] := by
  unfold isIdentifier at h
  split at h
  · cases h
  · next c cs hname =>
    simp only [Bool.and_eq_true, Option.isNone_iff_eq_none] at h
    obtain ⟨⟨hc, hcs⟩, hfree⟩ := h
    have hword := Prints.word hname hc hcs
    rwa [Token.ofWord, hfree] at hword

namespace Expr

def wellNamed : Expr → Bool
  | int _ | bool _ => true
  | var name => isIdentifier name
  | neg e | not e => e.wellNamed
  | binary _ lhs rhs => lhs.wellNamed && rhs.wellNamed

def literalTokens : Int → List Token
  | .ofNat n => [.int n]
  | .negSucc n => [.op .sub, .int (n + 1)]

def operandTokens (parenthesized : Bool) (ts : List Token) : List Token :=
  if parenthesized then .leftParen :: (ts ++ [.rightParen]) else ts

/-- The tokens of the text of an expression. -/
def tokens : Expr → List Token
  | int n => literalTokens n.toInt
  | bool true => [.wordTrue]
  | bool false => [.wordFalse]
  | var name => [.ident name]
  | neg e => .op .sub :: operandTokens (e.level < 6) e.tokens
  | not e => .bang :: operandTokens (e.level < 6) e.tokens
  | binary op lhs rhs =>
    operandTokens (lhs.level < op.level || (op.isComparison && lhs.level == op.level)) lhs.tokens ++
      .op op :: operandTokens (rhs.level ≤ op.level) rhs.tokens

theorem prints_literal (n : Int64) : Prints (Text.decimal n.toInt) (literalTokens n.toInt) := by
  have hlimit : literalLimit = 2 ^ 64 := rfl
  have hlow := n.le_toInt
  have hhigh := n.toInt_lt
  cases h : n.toInt with
  | ofNat m =>
    rw [h, Int.ofNat_eq_natCast] at hhigh
    exact Prints.number (by omega)
  | negSucc m =>
    rw [h] at hlow
    exact (Prints.number (by omega)).minus

theorem prints_operand {s : String} {ts : List Token} (parenthesized : Bool) (h : Prints s ts) :
    Prints (operandText parenthesized s) (operandTokens parenthesized ts) := by
  cases parenthesized with
  | true => exact h.paren
  | false => exact h

theorem prints_text (e : Expr) (he : e.wellNamed = true) : Prints e.text e.tokens := by
  induction e with
  | int n => exact prints_literal n
  | bool b =>
    cases b with
    | true => exact Prints.reserved (by decide)
    | false => exact Prints.reserved (by decide)
  | var name => exact Prints.identifier he
  | neg e ih => exact (prints_operand _ (ih he)).minus
  | not e ih => exact (prints_operand _ (ih he)).bang
  | binary op lhs rhs ihl ihr =>
    rw [wellNamed, Bool.and_eq_true] at he
    exact (prints_operand _ (ihl he.1)).binary op (prints_operand _ (ihr he.2))

end Expr

namespace Action

def assignmentWellNamed (a : String × Expr) : Bool := isIdentifier a.1 && a.2.wellNamed

def wellNamed : Action → Bool
  | skip => true
  | assign name value => assignmentWellNamed (name, value)
  | atomic assignments => assignments.all assignmentWellNamed
  | receive channel target => isIdentifier channel && isIdentifier target
  | send channel value => isIdentifier channel && value.wellNamed

def assignmentTokens (a : String × Expr) : List Token := .ident a.1 :: .assign :: a.2.tokens

/-- The tokens of the assignments that follow the first, each with the semicolon before it. -/
def furtherTokens : List (String × Expr) → List Token
  | [] => []
  | a :: rest => .semicolon :: (assignmentTokens a ++ furtherTokens rest)

def blockTokens : List (String × Expr) → List Token
  | [] => []
  | a :: rest => assignmentTokens a ++ furtherTokens rest

/-- The tokens of the text of an action. -/
def tokens : Action → List Token
  | skip => [.wordSkip]
  | assign name value => assignmentTokens (name, value)
  | atomic assignments => .wordAtomic :: .leftBrace :: (blockTokens assignments ++ [.rightBrace])
  | receive channel target => [.ident channel, .question, .ident target]
  | send channel value => .ident channel :: .bang :: value.tokens

theorem prints_assignment {a : String × Expr} (ha : assignmentWellNamed a = true) :
    Prints (assignmentText a) (assignmentTokens a) := by
  rw [assignmentWellNamed, Bool.and_eq_true] at ha
  have hsign : Separates " := " .assign := separates_twoSigns (by decide) rfl
  exact (Prints.identifier ha.1).join hsign (Expr.prints_text a.2 ha.2)

theorem prints_block {as : List (String × Expr)} (has : as.all assignmentWellNamed = true)
    (hne : as ≠ []) :
    Prints (Text.separated "; " (as.map assignmentText)) (blockTokens as) := by
  induction as with
  | nil => exact absurd rfl hne
  | cons a as ih =>
    rw [List.all_cons, Bool.and_eq_true] at has
    have ha := prints_assignment has.1
    cases as with
    | nil => simpa [blockTokens, furtherTokens, Text.separated] using ha
    | cons b as => exact ha.sequence (ih has.2 (List.cons_ne_nil b as))

theorem trails_block {as : List (String × Expr)} (has : as.all assignmentWellNamed = true) :
    Trails ("\x7b" ++ Text.separated "; " (as.map assignmentText) ++ "\x7d")
      (.leftBrace :: (blockTokens as ++ [.rightBrace])) := by
  have hopen : Separates "\x7b" .leftBrace :=
    separates_sign (by decide) (by decide) rfl (fun d => by simp [Token.ofTwo?]) (by decide)
  have hclose : Separates "\x7d" .rightBrace :=
    separates_sign (by decide) (by decide) rfl (fun d => by simp [Token.ofTwo?]) (by decide)
  constructor
  · intro rest _
    simpa using hopen.boundary _
  · intro rest us hrest hus
    cases as with
    | nil => simpa [Text.separated, blockTokens] using hopen.lexes (hclose.lexes hus)
    | cons a as =>
      have hblock := (prints_block has (List.cons_ne_nil a as)).lexes (hclose.boundary rest)
        (hclose.lexes hus)
      simpa using hopen.lexes hblock

theorem prints_text (a : Action) (ha : a.wellNamed = true) : Prints a.text a.tokens := by
  cases a with
  | skip => exact Prints.reserved (by decide)
  | assign name value => exact prints_assignment ha
  | atomic as =>
    have hword : Prints "atomic" [.wordAtomic] := Prints.reserved (by decide)
    have hblock := hword.append (trails_block ha)
    rwa [← String.append_assoc, ← String.append_assoc] at hblock
  | receive channel target =>
    rw [wellNamed, Bool.and_eq_true] at ha
    have hsign : Separates "?" .question :=
      separates_sign (by decide) (by decide) rfl (fun d => by simp [Token.ofTwo?]) (by decide)
    exact (Prints.identifier ha.1).join hsign (Prints.identifier ha.2)
  | send channel value =>
    rw [wellNamed, Bool.and_eq_true] at ha
    have hsend := (Prints.identifier ha.1).append (Expr.prints_text value ha.2).trails_bang
    rwa [← String.append_assoc] at hsend

end Action

namespace Stmt

/-- Induction on statements, with a hypothesis for the body of each option. -/
@[induction_eliminator]
theorem induction {P : Stmt → Prop} (basic : ∀ a, P (basic a))
    (seq : ∀ s t, P s → P t → P (seq s t))
    (choice : ∀ os, (∀ o ∈ os, P o.2) → P (choice os))
    (loop : ∀ os, (∀ o ∈ os, P o.2) → P (loop os)) (s : Stmt) : P s :=
  @Stmt.rec P (fun os => ∀ o ∈ os, P o.2) (fun o => P o.2) basic seq choice loop
    (fun _ h => nomatch h) (fun _ _ ho hos => List.forall_mem_cons.2 ⟨ho, hos⟩) (fun _ _ h => h) s

mutual
/-- Every action passes `p`, every guard passes `q`, and no list of options is empty. -/
def all (p : Action → Bool) (q : Expr → Bool) : Stmt → Bool
  | basic action => p action
  | seq first second => all p q first && all p q second
  | choice options => !options.isEmpty && allOptions p q options
  | loop options => !options.isEmpty && allOptions p q options

def allOptions (p : Action → Bool) (q : Expr → Bool) : List (Expr × Stmt) → Bool
  | [] => true
  | (guard, body) :: rest => q guard && all p q body && allOptions p q rest
end

section All

variable {p : Action → Bool} {q : Expr → Bool}

theorem all_seq {s t : Stmt} :
    (seq s t).all p q = true ↔ s.all p q = true ∧ t.all p q = true := by
  rw [all, Bool.and_eq_true]

theorem allOptions_iff {os : List (Expr × Stmt)} :
    allOptions p q os = true ↔ ∀ o ∈ os, q o.1 = true ∧ o.2.all p q = true := by
  induction os with
  | nil => simp [allOptions]
  | cons o os ih => simp [allOptions, ih]

theorem all_choice {os : List (Expr × Stmt)} :
    (choice os).all p q = true ↔ os ≠ [] ∧ ∀ o ∈ os, q o.1 = true ∧ o.2.all p q = true := by
  rw [all, Bool.and_eq_true, allOptions_iff, Bool.not_eq_true', List.isEmpty_eq_false_iff]

theorem all_loop {os : List (Expr × Stmt)} :
    (loop os).all p q = true ↔ os ≠ [] ∧ ∀ o ∈ os, q o.1 = true ∧ o.2.all p q = true :=
  all_choice

end All

/-- The names are identifiers, and every choice and loop has an option. -/
def wellFormed (s : Stmt) : Bool := s.all Action.wellNamed Expr.wellNamed

mutual
/-- The tokens of the text of a statement. -/
def tokens : Stmt → List Token
  | basic action => action.tokens
  | seq first second => tokens first ++ .semicolon :: tokens second
  | choice options => .wordIf :: (optionTokens options ++ [.wordFi])
  | loop options => .wordDo :: (optionTokens options ++ [.wordOd])

def optionTokens : List (Expr × Stmt) → List Token
  | [] => []
  | (guard, body) :: rest =>
    .doubleColon :: (guard.tokens ++ .arrow :: tokens body) ++ optionTokens rest
end

theorem prints_branches {opening closing : String} {t u : Token} {os : List (Expr × Stmt)}
    (ht : (opening, t) ∈ Token.reserved) (hu : (closing, u) ∈ Token.reserved)
    (h : Trails (optionsText os) (optionTokens os)) :
    Prints (opening ++ optionsText os ++ (" " ++ closing)) (t :: (optionTokens os ++ [u])) :=
  ((Prints.reserved ht).append h).append (Prints.reserved hu).spaced

theorem trails_optionsText {os : List (Expr × Stmt)}
    (h : ∀ o ∈ os, o.1.wellNamed = true ∧ Prints o.2.text o.2.tokens) :
    Trails (optionsText os) (optionTokens os) := by
  induction os with
  | nil => exact ⟨id, fun _ hus => hus⟩
  | cons o os ih =>
    rw [List.forall_mem_cons] at h
    have hcolons : Separates " :: " .doubleColon := separates_twoSigns (by decide) rfl
    have harrow : Separates " -> " .arrow := separates_twoSigns (by decide) rfl
    have hoption := (o.1.prints_text h.1.1).join harrow h.1.2
    have htrails := (hoption.after hcolons).append (ih h.2)
    simpa only [optionsText, optionTokens, String.append_assoc] using htrails

theorem prints_text (s : Stmt) (hs : s.wellFormed = true) : Prints s.text s.tokens := by
  rw [wellFormed] at hs
  induction s with
  | basic action => exact action.prints_text hs
  | seq first second ihf ihs =>
    rw [all_seq] at hs
    exact (ihf hs.1).sequence (ihs hs.2)
  | choice options ih =>
    rw [all_choice] at hs
    have hif : ("if", Token.wordIf) ∈ Token.reserved := by decide
    have hfi : ("fi", Token.wordFi) ∈ Token.reserved := by decide
    apply prints_branches hif hfi
    exact trails_optionsText fun o ho => ⟨(hs.2 o ho).1, ih o ho (hs.2 o ho).2⟩
  | loop options ih =>
    rw [all_loop] at hs
    have hdo : ("do", Token.wordDo) ∈ Token.reserved := by decide
    have hod : ("od", Token.wordOd) ∈ Token.reserved := by decide
    apply prints_branches hdo hod
    exact trails_optionsText fun o ho => ⟨(hs.2 o ho).1, ih o ho (hs.2 o ho).2⟩

end Stmt

end OmegaCheck
