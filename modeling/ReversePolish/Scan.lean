import ReversePolish.Lexeme

/-!
# Scanning a source

A scan is everything that a source text holds for the stages after it: its tokens, and a warning
for each character of no class. Scanning never fails; a stray character is skipped.

* `Scan.ofChars`: the scan of a text whose first character stands at a given byte offset.
* `Scan.ofSource`: the scan of a whole source.
-/

namespace ReversePolish

/-- A character of no class, and where it stands. -/
structure Warning where
  char : Char
  offset : Nat
  deriving DecidableEq, Repr

/-- The warning as a sentence. -/
def Warning.describe (w : Warning) : String :=
  "Unexpected character '" ++ w.char.toString ++ "' at position " ++ w.offset.repr

/-- The tokens and the warnings of a text, each in the order of the text. -/
structure Scan where
  tokens : List Token
  warnings : List Warning
  deriving DecidableEq, Repr

namespace Scan

/-- Puts a lexeme that stands at `offset` in front of the scan of what follows it. -/
def cons (offset : Nat) : Lexeme → Scan → Scan
  | .token kind text, s => { s with tokens := ⟨kind, String.ofList text, offset⟩ :: s.tokens }
  | .blank _, s => s
  | .stray c, s => { s with warnings := ⟨c, offset⟩ :: s.warnings }

/-- The scan of a text whose first character stands at byte `offset` of the source. -/
def ofChars (offset : Nat) : List Char → Scan
  | [] => ⟨[], []⟩
  | c :: cs =>
    let lexeme := (Lexeme.first c cs).1
    cons offset lexeme
      (ofChars (offset + (String.ofList lexeme.chars).utf8ByteSize) (Lexeme.first c cs).2)
termination_by text => text.length
decreasing_by exact Lexeme.length_rest_lt c cs

/-- The scan of a whole source. -/
def ofSource (source : String) : Scan := ofChars 0 source.toList

end Scan

end ReversePolish
