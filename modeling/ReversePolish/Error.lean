import ReversePolish.Text.Offset
import ReversePolish.Token

/-!
# Errors

Why a source has no reverse Polish form, and how that is shown to its author. An error names a
kind, the byte offset it is anchored at and a message; the kinds fall into two stages.

* `Error.unexpectedEnd`, `Error.unexpectedToken`, `Error.missingCloseParen`, `Error.trailingTokens`,
  `Error.divisionByZero`: the errors that the stages raise, each with its wording.
* `Error.render`: the source in quotes, and below it a caret with the message.
* `bind_eq_ok`, `map_eq_ok`: how two stages in a row succeed.
* `mapError_eq_ok`, `mapError_eq_error`: a stage whose errors are rewritten succeeds and fails as
  before.
-/

namespace ReversePolish

/-! ## Stages in a row -/

section Stages

universe u v

variable {ε ε' : Type u} {α β : Type v} {x : Except ε α} {f : α → Except ε β}

theorem bind_eq_ok {b : β} : x >>= f = .ok b ↔ ∃ a, x = .ok a ∧ f a = .ok b := by
  cases x with
  | error e => simp [bind, Except.bind]
  | ok a => simp [bind, Except.bind]

theorem map_eq_ok {g : α → β} {b : β} : x.map g = .ok b ↔ ∃ a, x = .ok a ∧ g a = b := by
  cases x with
  | error e => simp [Except.map]
  | ok a => simp [Except.map]

theorem mapError_ok (g : ε → ε') (a : α) : (Except.ok a : Except ε α).mapError g = .ok a := rfl

theorem mapError_error (g : ε → ε') (e : ε) :
    (Except.error e : Except ε α).mapError g = .error (g e) := rfl

theorem mapError_eq_ok {g : ε → ε'} {a : α} : x.mapError g = .ok a ↔ x = .ok a := by
  cases x with
  | error e => simp [mapError_error]
  | ok b => simp [mapError_ok]

theorem mapError_eq_error {g : ε → ε'} {e' : ε'} :
    x.mapError g = .error e' ↔ ∃ e, x = .error e ∧ g e = e' := by
  cases x with
  | error e => simp [mapError_error]
  | ok b => simp [mapError_ok]

end Stages

namespace Error

/-- The stages that can refuse a source. -/
inductive Stage where
  | parsing
  | analysis
  deriving DecidableEq, Repr

/-- What a stage is called in front of a message. -/
def Stage.title : Stage → String
  | .parsing => "Parsing error"
  | .analysis => "Semantic Analysis error"

/-- The ways a source can be refused. -/
inductive Kind where
  | unexpectedEnd
  | unexpectedToken
  | missingCloseParen
  | trailingTokens
  | divisionByZero
  deriving DecidableEq, Repr

/-- The stage that raises errors of a kind. -/
def Kind.stage : Kind → Stage
  | .divisionByZero => .analysis
  | _ => .parsing

end Error

/-- A reason to refuse a source, anchored at a byte offset. -/
structure Error where
  kind : Error.Kind
  offset : Nat
  message : String
  deriving DecidableEq, Repr

namespace Error

/-- The stage that raised the error. -/
def stage (e : Error) : Stage := e.kind.stage

/-! ## The errors that arise -/

/-- The input ends where an operand should stand. -/
def unexpectedEnd (offset : Nat) : Error :=
  ⟨.unexpectedEnd, offset, "Unexpected end of input"⟩

/-- A token that cannot start an operand stands where one should. -/
def unexpectedToken (t : Token) : Error :=
  ⟨.unexpectedToken, t.offset, "Unexpected token: " ++ t.text⟩

/-- An open parenthesis is not closed where it has to be. -/
def missingCloseParen (offset : Nat) : Error :=
  ⟨.missingCloseParen, offset, "Expected ')'"⟩

/-- A whole expression is followed by something else. -/
def trailingTokens (t : Token) : Error :=
  ⟨.trailingTokens, t.offset, "Unexpected tokens remaining"⟩

/-- A number that reads as zero divides. -/
def divisionByZero (offset : Nat) : Error :=
  ⟨.divisionByZero, offset, "Division by zero detected during semantic analysis."⟩

/-! ## Pointing into the source -/

/-- How many spaces stand before the caret: one for the opening quote, and one for each character
before the offset. An offset past the end counts as the end, and one inside a character as the
start of that character. -/
def caretColumn (source : String) (offset : Nat) : Nat :=
  let place := Text.floorBoundary source.toList (min offset source.utf8ByteSize)
  Text.charsBefore source.toList place + 1

/-- The source in quotes, and below it a caret under the error's place with the message. -/
def render (e : Error) (source : String) : String :=
  "'" ++ source ++ "'\n" ++ "".pushn ' ' (caretColumn source e.offset) ++ "^ " ++ e.message

end Error

end ReversePolish
