/-!
# Byte offsets in a text

Places in a text are counted in bytes of its UTF-8 form, while a reader counts characters. This
module goes from the one to the other.

* `isBoundary`, `floorBoundary`: whether an offset lies between two characters, and the last such
  offset at or before a given one.
* `charsBefore`: how many characters start before an offset.
* `advance`: the offset some bytes further on. Offsets are words of 64 bits, so that past the last
  word they start over; `advance_of_lt` says that up to there it is a plain sum.
-/

namespace ReversePolish.Text

/-- Whether the first characters of the text, some number of them, take exactly `n` bytes. -/
def isBoundary : List Char → Nat → Bool
  | _, 0 => true
  | [], _ + 1 => false
  | c :: cs, n + 1 => decide (c.utf8Size ≤ n + 1) && isBoundary cs (n + 1 - c.utf8Size)

/-- The last boundary at or before `n`, found by stepping down. -/
def floorBoundary (text : List Char) : Nat → Nat
  | 0 => 0
  | n + 1 => if isBoundary text (n + 1) then n + 1 else floorBoundary text n

/-- The number of characters that start before byte `n`. -/
def charsBefore : List Char → Nat → Nat
  | [], _ => 0
  | _, 0 => 0
  | c :: cs, n + 1 => charsBefore cs (n + 1 - c.utf8Size) + 1

/-- One more than the greatest offset. -/
def offsetLimit : Nat := UInt64.size

/-- The offset `bytes` further on than `offset`. -/
def advance (offset bytes : Nat) : Nat := (offset + bytes) % offsetLimit

theorem advance_of_lt {offset bytes : Nat} (h : offset + bytes < offsetLimit) :
    advance offset bytes = offset + bytes :=
  Nat.mod_eq_of_lt h

end ReversePolish.Text
