/-!
# White space and blanks

Two sets of characters that a reader might take for one.

* `isWhiteSpace`: the Unicode property `White_Space`, given by the ranges `whiteSpaceRanges`. A
  source of white space alone counts as no source at all.
* `isBlank`: what may stand between lexemes, which is white space without NEXT LINE (U+0085) and
  with the byte order mark (U+FEFF), so that a text file may start with the mark.
* `trimmed`: a text without the white space at its ends.
-/

namespace ReversePolish.Text

/-- The code points of the Unicode property `White_Space`, as closed ranges in increasing order. -/
def whiteSpaceRanges : List (Nat × Nat) :=
  [(0x09, 0x0D), (0x20, 0x20), (0x85, 0x85), (0xA0, 0xA0), (0x1680, 0x1680), (0x2000, 0x200A),
    (0x2028, 0x2029), (0x202F, 0x202F), (0x205F, 0x205F), (0x3000, 0x3000)]

/-- The Unicode property `White_Space`. -/
def isWhiteSpace (c : Char) : Bool :=
  whiteSpaceRanges.any fun range => decide (range.1 ≤ c.toNat ∧ c.toNat ≤ range.2)

/-- NEXT LINE, the one white-space character that does not separate lexemes. -/
def nextLine : Char := '\u0085'

/-- The byte order mark, a blank although it is not white space. -/
def byteOrderMark : Char := '\ufeff'

/-- A character that separates lexemes without notice. -/
def isBlank (c : Char) : Bool :=
  c == byteOrderMark || (isWhiteSpace c && c != nextLine)

/-- The text without the white space at its two ends. -/
def trimmed (text : List Char) : List Char :=
  ((text.dropWhile isWhiteSpace).reverse.dropWhile isWhiteSpace).reverse

/-! ## The two sets compared -/

/-- Away from the two special characters the sets agree. -/
theorem isBlank_eq_isWhiteSpace {c : Char} (hMark : c ≠ byteOrderMark) (hLine : c ≠ nextLine) :
    isBlank c = isWhiteSpace c := by
  rw [isBlank, beq_false_of_ne hMark, bne_iff_ne.2 hLine, Bool.false_or, Bool.and_true]

end ReversePolish.Text
