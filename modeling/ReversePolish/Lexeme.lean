import ReversePolish.Text.Blank
import ReversePolish.Token

/-!
# Lexemes

What can stand at the front of a source text: a token, a run of blanks, or a character of no
class. A lexeme never looks past its own last character except to make a run as long as it can be.

* `Lexeme.first`: the lexeme at the front of a nonempty text, and the text after it.
* `Lexeme.chars_append_rest`: the lexeme and the text after it make up the whole text.
* `Lexeme.chars_ne_nil`: a lexeme has at least one character, so that reading makes progress.
-/

namespace ReversePolish

/-- What stands at the front of a text. -/
inductive Lexeme where
  | token (kind : Token.Kind) (text : List Char)
  | blank (run : List Char)
  | stray (c : Char)
  deriving DecidableEq, Repr

/-- The characters of the four operators. -/
def isOperatorChar (c : Char) : Bool := c == '+' || c == '-' || c == '*' || c == '/'

/-- The two parentheses. -/
def isParenChar (c : Char) : Bool := c == '(' || c == ')'

namespace Lexeme

/-- The characters that the lexeme covers. -/
def chars : Lexeme → List Char
  | .token _ text => text
  | .blank run => run
  | .stray c => [c]

/-- The lexeme at the front of the text `c :: cs`, and the text after it. Digits and blanks are
taken in the longest run; every other lexeme is a single character. -/
def first (c : Char) (cs : List Char) : Lexeme × List Char :=
  if c.isDigit then
    (.token .number (c :: cs.takeWhile Char.isDigit), cs.dropWhile Char.isDigit)
  else if isOperatorChar c then (.token .operator [c], cs)
  else if Text.isBlank c then
    (.blank (c :: cs.takeWhile Text.isBlank), cs.dropWhile Text.isBlank)
  else if isParenChar c then (.token .paren [c], cs)
  else (.stray c, cs)

/-! ## Nothing is lost and something is read -/

theorem chars_append_rest (c : Char) (cs : List Char) :
    (first c cs).1.chars ++ (first c cs).2 = c :: cs := by
  unfold first
  repeat' split
  all_goals simp [chars]

theorem chars_ne_nil (c : Char) (cs : List Char) : (first c cs).1.chars ≠ [] := by
  unfold first
  repeat' split
  all_goals simp [chars]

theorem length_rest_lt (c : Char) (cs : List Char) : (first c cs).2.length < cs.length + 1 := by
  have hAll := congrArg List.length (chars_append_rest c cs)
  have hSome := List.length_pos_iff.2 (chars_ne_nil c cs)
  simp only [List.length_append, List.length_cons] at hAll
  omega

end Lexeme

end ReversePolish
