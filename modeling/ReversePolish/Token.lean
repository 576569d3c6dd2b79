import ReversePolish.Text.Offset

/-!
# Tokens

A token is a piece of source text together with its class and the byte offset where it starts.

* `Token.Kind`: the three classes, with the names under which tokens are listed.
* `Token.isOperator`, `Token.isParen`: a token counts as a symbol only if both its class and its
  text say so.
* `Token.describe`: the line of a token in a listing.
-/

namespace ReversePolish

/-- The classes of tokens. -/
inductive Token.Kind where
  | number
  | operator
  | paren
  deriving DecidableEq, Repr

/-- A piece of source text with its class and the byte offset of its first character. -/
structure Token where
  kind : Token.Kind
  text : String
  offset : Nat
  deriving DecidableEq, Repr

namespace Token

/-- The name of a class in listings and reports. -/
def Kind.name : Kind → String
  | .number => "NUMBER"
  | .operator => "OPERATOR"
  | .paren => "PAREN"

/-- An operator token that spells exactly `symbol`. -/
def isOperator (t : Token) (symbol : String) : Bool :=
  t.kind == .operator && t.text == symbol

/-- A parenthesis token that spells exactly `symbol`. -/
def isParen (t : Token) (symbol : String) : Bool :=
  t.kind == .paren && t.text == symbol

/-- The byte offset just past the token. -/
def endOffset (t : Token) : Nat := Text.advance t.offset t.text.utf8ByteSize

/-- The line of the token in a listing: its class and its text. -/
def describe (t : Token) : String := t.kind.name ++ ": " ++ t.text

/-- Where the tokens end: just past the last one, and at the very start if there is none. -/
def endOfAll (tokens : List Token) : Nat := tokens.getLast?.elim 0 endOffset

end Token

end ReversePolish
