import ReversePolish.Expr.Parser
import ReversePolish.Json
import ReversePolish.Outline
import ReversePolish.Rpn
import ReversePolish.Scan

/-!
# Compilations

From source text to reverse Polish text in one step, with everything that turns up on the way.

* `lower`: what tokens compile to, or the first error.
* `compile`: what a source compiles to. Warnings do not stop it.
* `Compilation.report`: a compilation as a JSON document.
-/

namespace ReversePolish

/-- What the tokens of a source compile to. -/
structure Lowered where
  tree : Outline
  rpn : String
  deriving Repr

/-- Everything that compiling a source gives. -/
structure Compilation where
  tokens : List Token
  warnings : List Warning
  tree : Outline
  rpn : String
  deriving Repr

/-- Compiles tokens. Reading them as an expression comes first, so that a division by zero is
reported only of tokens that spell an expression. -/
def lower (tokens : List Token) : Except Error Lowered := do
  let expr ← Expr.ofTokens tokens
  let rpn ← expr.toRpn
  return ⟨Outline.ofExpr expr, rpn⟩

/-- Compiles a source. -/
def compile (source : String) : Except Error Compilation := do
  let scan := Scan.ofSource source
  let lowered ← lower scan.tokens
  return ⟨scan.tokens, scan.warnings, lowered.tree, lowered.rpn⟩

/-! ## Reports -/

/-- A token in a report: its class and its text. -/
def Token.toJson (t : Token) : Json :=
  .object [("kind", .string t.kind.name), ("text", .string t.text)]

mutual

/-- An outline in a report: its label and its children. -/
def Outline.toJson : Outline → Json
  | ⟨label, children⟩ =>
    .object [("label", .string label), ("children", .array (Outline.forestToJson children))]

/-- The children of an outline in a report. -/
def Outline.forestToJson : List Outline → List Json
  | [] => []
  | t :: ts => t.toJson :: Outline.forestToJson ts

end

namespace Compilation

/-- The contents of the report: the tokens, the outline and the reverse Polish text. -/
def toJson (c : Compilation) : Json :=
  .object [("tokens", .array (c.tokens.map Token.toJson)), ("tree", c.tree.toJson),
    ("postfix", .string c.rpn)]

/-- The compilation as a JSON document. -/
def report (c : Compilation) : String := c.toJson.pretty

end Compilation

end ReversePolish
