import OmegaCheck.Program.Lexeme
import OmegaCheck.Program.Stmt

/-!
# Reading programs

Recursive descent over tokens. Expressions are read by climbing: after an operand, operators are
taken as long as they bind tightly enough, and what stands to the right of an operator is read up to
the next one that binds no tighter. A statement may be followed by one semicolon more than it needs.
Each reader returns the tokens it left over; that they are fewer is part of its type, and is why the
reading ends.
-/

namespace OmegaCheck

namespace Parser

/-- Why reading stopped. -/
inductive Reason where
  | expected (what : Expected)
  | outOfRange (negative : Bool) (magnitude : Nat)
  deriving DecidableEq

/-- A refusal, with the tokens from the offending one on. -/
structure Refusal where
  reason : Reason
  rest : List Token
  deriving DecidableEq

/-- A value read, with fewer than `bound` tokens left over. -/
structure Parsed (α : Type) (bound : Nat) where
  value : α
  rest : List Token
  fewer : rest.length < bound

namespace Parsed

variable {α β : Type} {m n : Nat}

def widen (p : Parsed α m) (h : m ≤ n) : Parsed α n := ⟨p.value, p.rest, Nat.lt_of_lt_of_le p.fewer h⟩

def map (f : α → β) (p : Parsed α n) : Parsed β n := ⟨f p.value, p.rest, p.fewer⟩

/-- What is read from the tokens that `p` left over leaves fewer tokens still. -/
def andThen (p : Parsed α n) (q : Parsed β p.rest.length) : Parsed β n :=
  q.widen (Nat.le_of_lt p.fewer)

end Parsed

abbrev Reading (α : Type) (bound : Nat) : Type := Except Refusal (Parsed α bound)

def refuse {α : Type} {n : Nat} (what : Expected) (ts : List Token) : Reading α n :=
  .error ⟨.expected what, ts⟩

/-- One given token. -/
def expect (token : Token) (ts : List Token) : Reading Unit ts.length :=
  match ts with
  | t :: rest =>
    if t = token then .ok ⟨(), rest, Nat.lt_succ_self _⟩ else refuse (.token token) (t :: rest)
  | [] => refuse (.token token) []

def identifier (ts : List Token) : Reading String ts.length :=
  match ts with
  | .ident name :: rest => .ok ⟨name, rest, Nat.lt_succ_self _⟩
  | ts => refuse .identifier ts

/-- A non-negative literal has at most this magnitude less one, a negative one at most this. -/
def signBound : Nat := Nat.pow 2 63

mutual
/-- An operand, and the operators of level `least` or tighter that follow it. -/
def binary (least : Nat) (ts : List Token) : Reading Expr ts.length := do
  let first ← unary ts
  let whole ← climb least first.value first.rest
  return whole.widen (Nat.succ_le_of_lt first.fewer)
termination_by (ts.length, 2)
decreasing_by
  · decreasing_tactic
  · have := first.fewer; simp only [Prod.lex_def]; omega

/-- The operators of level `least` or tighter, applied to `lhs` as far as they go. -/
def climb (least : Nat) (lhs : Expr) (ts : List Token) : Reading Expr (ts.length + 1) :=
  match ts with
  | .op o :: rest =>
    if o.level < least then .ok ⟨lhs, .op o :: rest, Nat.lt_succ_self _⟩
    else do
      let rhs ← binary (o.level + 1) rest
      let whole ← climb least (.binary o lhs rhs.value) rhs.rest
      return whole.widen (by have := rhs.fewer; simp only [List.length_cons]; omega)
  | ts => .ok ⟨lhs, ts, Nat.lt_succ_self _⟩
termination_by (ts.length, 0)
decreasing_by
  · simp only [Prod.lex_def, List.length_cons]; omega
  · have := rhs.fewer; simp only [Prod.lex_def, List.length_cons]; omega

/-- An operand of a unary operator; a minus sign before a literal belongs to the literal. -/
def unary (ts : List Token) : Reading Expr ts.length :=
  match ts with
  | .bang :: rest => do
    let e ← unary rest
    return (e.map .not).widen (Nat.le_succ _)
  | .op .sub :: .int n :: rest =>
    if n ≤ signBound then .ok ⟨.int (Int64.ofInt (-n)), rest, by simp only [List.length_cons]; omega⟩
    else .error ⟨.outOfRange true n, .int n :: rest⟩
  | .op .sub :: rest => do
    let e ← unary rest
    return (e.map .neg).widen (Nat.le_succ _)
  | ts => primary ts
termination_by (ts.length, 1)

def primary (ts : List Token) : Reading Expr ts.length :=
  match ts with
  | .int n :: rest =>
    if n < signBound then .ok ⟨.int (Int64.ofNat n), rest, Nat.lt_succ_self _⟩
    else .error ⟨.outOfRange false n, .int n :: rest⟩
  | .wordTrue :: rest => .ok ⟨.bool true, rest, Nat.lt_succ_self _⟩
  | .wordFalse :: rest => .ok ⟨.bool false, rest, Nat.lt_succ_self _⟩
  | .ident name :: rest => .ok ⟨.var name, rest, Nat.lt_succ_self _⟩
  | .leftParen :: rest => do
    let e ← binary 1 rest
    let close ← expect .rightParen e.rest
    return ((e.andThen close).map fun _ => e.value).widen (Nat.le_succ _)
  | ts => refuse .expression ts
termination_by (ts.length, 0)
end

def expr (ts : List Token) : Reading Expr ts.length := binary 1 ts

def assignment (ts : List Token) : Reading (String × Expr) ts.length := do
  let name ← identifier ts
  let sign ← expect .assign name.rest
  let value ← expr sign.rest
  return (name.andThen (sign.andThen value)).map fun e => (name.value, e)

/-- The assignments that follow the first of an atomic block. -/
def assignments (ts : List Token) : Reading (List (String × Expr)) (ts.length + 1) :=
  match ts with
  | .semicolon :: rest =>
    if rest.head? = some .rightBrace then .ok ⟨[], rest, by simp only [List.length_cons]; omega⟩
    else do
      let first ← assignment rest
      let more ← assignments first.rest
      return (more.map (first.value :: ·)).widen
        (by have := first.fewer; simp only [List.length_cons]; omega)
  | ts => .ok ⟨[], ts, Nat.lt_succ_self _⟩
termination_by ts.length
decreasing_by have := first.fewer; simp only [List.length_cons]; omega

def action (ts : List Token) : Reading Action ts.length :=
  match ts with
  | .wordSkip :: rest => .ok ⟨.skip, rest, Nat.lt_succ_self _⟩
  | .wordAtomic :: rest => do
    let left ← expect .leftBrace rest
    let first ← assignment left.rest
    let more ← assignments first.rest
    let right ← expect .rightBrace more.rest
    return ⟨.atomic (first.value :: more.value), right.rest, by
      have := left.fewer
      have := first.fewer
      have := more.fewer
      have := right.fewer
      simp only [List.length_cons]
      omega⟩
  | .ident name :: .assign :: rest => do
    let value ← expr rest
    return (value.map (.assign name)).widen (by simp only [List.length_cons]; omega)
  | .ident channel :: .question :: rest => do
    let target ← identifier rest
    return (target.map (.receive channel)).widen (by simp only [List.length_cons]; omega)
  | .ident channel :: .bang :: rest => do
    let value ← expr rest
    return (value.map (.send channel)).widen (by simp only [List.length_cons]; omega)
  | .ident _ :: rest => refuse .operation rest
  | ts => refuse .statement ts

/-- Tokens before which a statement may end in a semicolon. -/
def endsStmt : List Token → Bool
  | [] => true
  | t :: _ => t = .wordFi || t = .wordOd || t = .doubleColon || t = .rightBrace

mutual
def stmt (ts : List Token) : Reading Stmt ts.length := do
  let first ← simple ts
  let whole ← sequence first.value first.rest
  return whole.widen (Nat.succ_le_of_lt first.fewer)
termination_by (ts.length, 1)
decreasing_by
  · decreasing_tactic
  · have := first.fewer; simp only [Prod.lex_def]; omega

/-- The statements after `first`, joined to it from the left. -/
def sequence (first : Stmt) (ts : List Token) : Reading Stmt (ts.length + 1) :=
  match ts with
  | .semicolon :: rest =>
    if endsStmt rest then .ok ⟨first, rest, by simp only [List.length_cons]; omega⟩
    else do
      let second ← simple rest
      let whole ← sequence (.seq first second.value) second.rest
      return whole.widen (by have := second.fewer; simp only [List.length_cons]; omega)
  | ts => .ok ⟨first, ts, Nat.lt_succ_self _⟩
termination_by (ts.length, 0)
decreasing_by
  · simp only [Prod.lex_def, List.length_cons]; omega
  · have := second.fewer; simp only [Prod.lex_def, List.length_cons]; omega

def simple (ts : List Token) : Reading Stmt ts.length :=
  match ts with
  | .wordIf :: rest => do
    let opts ← options rest
    if opts.value.isEmpty then refuse (.token .doubleColon) opts.rest
    else do
      let close ← expect .wordFi opts.rest
      return ⟨.choice opts.value, close.rest, by
        have := opts.fewer
        have := close.fewer
        simp only [List.length_cons]
        omega⟩
  | .wordDo :: rest => do
    let opts ← options rest
    if opts.value.isEmpty then refuse (.token .doubleColon) opts.rest
    else do
      let close ← expect .wordOd opts.rest
      return ⟨.loop opts.value, close.rest, by
        have := opts.fewer
        have := close.fewer
        simp only [List.length_cons]
        omega⟩
  | ts => do
    let a ← action ts
    return a.map .basic
termination_by (ts.length, 0)

/-- As many options as follow. -/
def options (ts : List Token) : Reading (List (Expr × Stmt)) (ts.length + 1) :=
  match ts with
  | .doubleColon :: rest => do
    let guard ← expr rest
    let sign ← expect .arrow guard.rest
    let body ← stmt sign.rest
    let more ← options body.rest
    return ⟨(guard.value, body.value) :: more.value, more.rest, by
      have := guard.fewer
      have := sign.fewer
      have := body.fewer
      have := more.fewer
      simp only [List.length_cons]
      omega⟩
  | ts => .ok ⟨[], ts, Nat.lt_succ_self _⟩
termination_by (ts.length, 0)
decreasing_by
  · have := guard.fewer; have := sign.fewer; simp only [Prod.lex_def, List.length_cons]; omega
  · have := guard.fewer
    have := sign.fewer
    have := body.fewer
    simp only [Prod.lex_def, List.length_cons]
    omega
end

/-- Two actions joined by a bar. -/
def handshake (ts : List Token) : Reading (Action × Action) ts.length := do
  let first ← action ts
  let sign ← expect .bar first.rest
  let second ← action sign.rest
  return (first.andThen (sign.andThen second)).map fun a => (first.value, a)

/-- The position and wording of a refusal, by the number of tokens it left over. -/
def Refusal.locate (r : Refusal) (lexemes : List Lexeme) (length : Nat) : ParseError where
  offset := ((lexemes.drop (lexemes.length - r.rest.length)).head?.map Lexeme.start).getD length
  fault := match r.reason with
    | .expected what => .unexpectedToken what r.rest.head?
    | .outOfRange negative n => .literalOutOfRange ((if negative then "-" else "") ++ n.repr)

/-- Reads a whole text. -/
def whole {α : Type} (reader : (ts : List Token) → Reading α ts.length) (source : String) :
    Except ParseError α := do
  let lexemes ← Lexeme.lex source
  let result : Except Refusal α := do
    let p ← reader (lexemes.map Lexeme.token)
    if p.rest.isEmpty then return p.value else .error ⟨.expected .endOfInput, p.rest⟩
  result.mapError fun r => r.locate lexemes source.utf8ByteSize

end Parser

def Expr.parse (source : String) : Except ParseError Expr := Parser.whole Parser.expr source

def Action.parse (source : String) : Except ParseError Action := Parser.whole Parser.action source

def Stmt.parse (source : String) : Except ParseError Stmt := Parser.whole Parser.stmt source

/-- Reads the label of a joint step, two actions joined by a bar. -/
def Action.parsePair (source : String) : Except ParseError (Action × Action) :=
  Parser.whole Parser.handshake source

end OmegaCheck
