import ReversePolish.Error
import ReversePolish.Expr

/-!
# Reading expressions from tokens

The grammar has one rule for each level of binding.

    sum     := product (('+' | '-') product)*
    product := factor (('*' | '/') factor)*
    factor  := NUMBER | '(' sum ')'

Each rule is a function that reads an expression off the front of the tokens, and the repetitions
fold to the left, so that `8-3-2` is `(8-3)-2`. A rule that succeeds has read at least one token:
`Parsed n` carries the proof, which is what makes the mutual recursion end.

* `Expr.sum`, `Expr.product`, `Expr.factor`: the rules.
* `Expr.ofTokens`: the expression that all the tokens spell, or the first error.
-/

namespace ReversePolish

/-- The operator that the token spells, if it is one of `ops`. -/
def Token.opAmong? (ops : List Op) (t : Token) : Option Op :=
  ops.find? fun op => t.isOperator op.symbol

namespace Expr

/-- An expression read off the front of some tokens, and the tokens after it, fewer than `n`. -/
structure Parsed (n : Nat) where
  expr : Expr
  rest : List Token
  length_lt : rest.length < n

/-- The same reading, off the front of more tokens. -/
def Parsed.weaken {m n : Nat} (p : Parsed m) (h : m ≤ n) : Parsed n :=
  ⟨p.expr, p.rest, Nat.lt_of_lt_of_le p.length_lt h⟩

/-- The operators that a sum repeats. -/
def sumOps : List Op := [.add, .sub]

/-- The operators that a product repeats. -/
def productOps : List Op := [.mul, .div]

/-- Steps over the parenthesis that has to follow a reading. -/
def closeParen (eof : Nat) {n : Nat} : Parsed n → Except Error (Parsed n)
  | ⟨_, [], _⟩ => .error (.missingCloseParen eof)
  | ⟨expr, t :: tokens, h⟩ =>
    if t.isParen ")" then .ok ⟨expr, tokens, Nat.lt_of_succ_lt h⟩
    else .error (.missingCloseParen t.offset)

mutual

/-- Reads a sum. `eof` is the offset that an error at the end of the tokens is anchored at. -/
def sum (eof : Nat) (tokens : List Token) : Except Error (Parsed tokens.length) := do
  let first ← product eof tokens
  sumTail eof first.expr first.rest first.length_lt
termination_by (tokens.length, 3)
decreasing_by
  · exact Prod.Lex.right _ (by decide)
  · exact Prod.Lex.left _ _ first.length_lt

/-- Goes on with a sum whose terms so far make up `lhs`. -/
def sumTail (eof : Nat) (lhs : Expr) {n : Nat} :
    (tokens : List Token) → tokens.length < n → Except Error (Parsed n)
  | [], h => .ok ⟨lhs, [], h⟩
  | t :: tokens, h =>
    match t.opAmong? sumOps with
    | none => .ok ⟨lhs, t :: tokens, h⟩
    | some op => do
      let term ← product eof tokens
      sumTail eof (.binary op lhs term.expr t.offset) term.rest
        (Nat.lt_trans term.length_lt (Nat.lt_of_succ_lt h))
termination_by tokens => (tokens.length, 4)
decreasing_by
  · exact Prod.Lex.left _ _ (Nat.lt_succ_self _)
  · exact Prod.Lex.left _ _ (Nat.lt_succ_of_lt term.length_lt)

/-- Reads a product. -/
def product (eof : Nat) (tokens : List Token) : Except Error (Parsed tokens.length) := do
  let first ← factor eof tokens
  productTail eof first.expr first.rest first.length_lt
termination_by (tokens.length, 1)
decreasing_by
  · exact Prod.Lex.right _ (by decide)
  · exact Prod.Lex.left _ _ first.length_lt

/-- Goes on with a product whose factors so far make up `lhs`. -/
def productTail (eof : Nat) (lhs : Expr) {n : Nat} :
    (tokens : List Token) → tokens.length < n → Except Error (Parsed n)
  | [], h => .ok ⟨lhs, [], h⟩
  | t :: tokens, h =>
    match t.opAmong? productOps with
    | none => .ok ⟨lhs, t :: tokens, h⟩
    | some op => do
      let next ← factor eof tokens
      productTail eof (.binary op lhs next.expr t.offset) next.rest
        (Nat.lt_trans next.length_lt (Nat.lt_of_succ_lt h))
termination_by tokens => (tokens.length, 2)
decreasing_by
  · exact Prod.Lex.left _ _ (Nat.lt_succ_self _)
  · exact Prod.Lex.left _ _ (Nat.lt_succ_of_lt next.length_lt)

/-- Reads a number, or a sum in parentheses. -/
def factor (eof : Nat) : (tokens : List Token) → Except Error (Parsed tokens.length)
  | [] => .error (.unexpectedEnd eof)
  | t :: tokens =>
    if t.kind = .number then .ok ⟨.leaf t.text t.offset, tokens, Nat.lt_succ_self _⟩
    else if t.isParen "(" then do
      let inner ← sum eof tokens
      (closeParen eof inner).map (·.weaken (Nat.le_succ _))
    else .error (.unexpectedToken t)
termination_by tokens => (tokens.length, 0)
decreasing_by exact Prod.Lex.left _ _ (Nat.lt_succ_self _)

end

/-- The expression that the tokens spell, all of them. -/
def ofTokens (tokens : List Token) : Except Error Expr := do
  let parsed ← sum (Token.endOfAll tokens) tokens
  match parsed.rest with
  | [] => .ok parsed.expr
  | t :: _ => .error (.trailingTokens t)

end Expr

end ReversePolish
