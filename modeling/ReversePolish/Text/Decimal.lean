/-!
# Decimal literals and the zero they may read as

A decimal literal is an optional sign, digits with at most one point among them, and an optional
power of ten. This module reads one and tells whether its value, rounded to the nearest double, is
zero.

* `Decimal.read?`: the reading of a whole text, `none` for a text of another form.
* `Decimal.roundsToZero`: the value is at most `2 ^ (-1075)` in size. That is half of the least
  positive double, and a half goes to the even neighbour, which is zero.
* `readsAsZero`: the two together.
* `isNumeral`: a nonempty run of digits, the one form of literal that a source can hold.
* `readsAsZero_iff_of_isNumeral`: a numeral reads as zero only if it is written with zeros alone.
-/

namespace ReversePolish.Text

/-- The number that the digits `cs` spell, most significant first. -/
def natOfDigits (cs : List Char) : Nat :=
  cs.foldl (fun n c => 10 * n + (c.toNat - '0'.toNat)) 0

/-- A decimal literal in parts: its value is the number that `whole ++ fraction` spells, times ten
to the power `exponent - fraction.length`, with a minus if `negative`. -/
structure Decimal where
  negative : Bool
  whole : List Char
  fraction : List Char
  exponent : Int
  deriving Repr, DecidableEq

namespace Decimal

/-! ## Reading -/

/-- A leading sign, if there is one, and what follows it. -/
def takeSign : List Char → Bool × List Char
  | '+' :: cs => (false, cs)
  | '-' :: cs => (true, cs)
  | cs => (false, cs)

/-- The digits after a leading point, none if there is no point, and what follows them. -/
def takeFraction : List Char → List Char × List Char
  | '.' :: cs => (cs.takeWhile Char.isDigit, cs.dropWhile Char.isDigit)
  | cs => ([], cs)

/-- The power of ten that makes up the end of a literal: nothing at all, or a mark `e` or `E` with
an optional sign and at least one digit. -/
def readExponent? : List Char → Option Int
  | [] => some 0
  | mark :: cs =>
    let signed := takeSign cs
    if (mark == 'e' || mark == 'E') && !signed.2.isEmpty && signed.2.all Char.isDigit then
      some (if signed.1 then -(natOfDigits signed.2 : Int) else natOfDigits signed.2)
    else none

/-- Reads a whole text as a decimal literal. -/
def read? (text : List Char) : Option Decimal :=
  let signed := takeSign text
  let whole := signed.2.takeWhile Char.isDigit
  let fractional := takeFraction (signed.2.dropWhile Char.isDigit)
  if whole.isEmpty && fractional.1.isEmpty then none
  else (readExponent? fractional.2).map (⟨signed.1, whole, fractional.1, ·⟩)

/-! ## Size of the value -/

/-- All digits of the literal, as one number. -/
def mantissa (d : Decimal) : Nat := natOfDigits (d.whole ++ d.fraction)

/-- How many digits the literal has; the mantissa is below ten to this power. -/
def width (d : Decimal) : Nat := d.whole.length + d.fraction.length

/-- The power of ten that multiplies the mantissa. -/
def scale (d : Decimal) : Int := d.exponent - d.fraction.length

/-- Whether the value is at most `2 ^ (-1075)` in size. A mantissa of `width` digits divided by
`10 ^ (width + 324)` always is, so that no power of ten beyond that is computed. -/
def roundsToZero (d : Decimal) : Bool :=
  d.mantissa == 0 ||
    match d.scale with
    | .ofNat _ => false
    | .negSucc k =>
      decide (d.width + 324 ≤ k + 1) || decide (d.mantissa * Nat.pow 2 1075 ≤ Nat.pow 10 (k + 1))

end Decimal

/-- Whether the whole text is a decimal literal whose nearest double is zero. -/
def readsAsZero (text : String) : Bool :=
  (Decimal.read? text.toList).any Decimal.roundsToZero

/-! ## Numerals -/

/-- Whether the text is a nonempty run of digits. -/
def isNumeral (text : String) : Bool := !text.toList.isEmpty && text.toList.all Char.isDigit

theorem isNumeral_iff {text : String} :
    isNumeral text = true ↔ text.toList ≠ [] ∧ ∀ c ∈ text.toList, c.isDigit = true := by
  simp [isNumeral]

theorem isDigit_iff {c : Char} :
    c.isDigit = true ↔ '0'.toNat ≤ c.toNat ∧ c.toNat ≤ '9'.toNat := by
  simp only [Char.isDigit, Bool.and_eq_true, decide_eq_true_eq, ge_iff_le]
  exact Iff.rfl

theorem digit_eq_zero_iff {c : Char} (h : c.isDigit = true) :
    c.toNat - '0'.toNat = 0 ↔ c = '0' := by
  have hLe := (isDigit_iff.1 h).1
  rw [← Char.toNat_inj]
  omega

theorem natOfDigits_eq_zero_iff {cs : List Char} (h : ∀ c ∈ cs, c.isDigit = true) :
    natOfDigits cs = 0 ↔ ∀ c ∈ cs, c = '0' := by
  suffices hFold : ∀ n, cs.foldl (fun n c => 10 * n + (c.toNat - '0'.toNat)) n = 0 ↔
      n = 0 ∧ ∀ c ∈ cs, c = '0' by simpa [natOfDigits] using hFold 0
  induction cs with
  | nil => simp
  | cons c cs ih =>
    intro n
    have hHead := digit_eq_zero_iff (h c List.mem_cons_self)
    have hTail := ih (fun d hd => h d (List.mem_cons_of_mem c hd)) (10 * n + (c.toNat - '0'.toNat))
    rw [List.foldl_cons, hTail, List.forall_mem_cons, ← hHead, ← and_assoc]
    exact and_congr_left' (by omega)

/-- Digits alone have no sign, no point and no power of ten. -/
theorem Decimal.read?_of_digits {cs : List Char} (hSome : cs ≠ [])
    (h : ∀ c ∈ cs, c.isDigit = true) : read? cs = some ⟨false, cs, [], 0⟩ := by
  have hSign : takeSign cs = (false, cs) := by
    unfold takeSign
    split
    · exact absurd (h '+' List.mem_cons_self) (by decide)
    · exact absurd (h '-' List.mem_cons_self) (by decide)
    · rfl
  have hTake : cs.takeWhile Char.isDigit = cs := by
    simpa using @List.takeWhile_append_of_pos _ _ cs [] h
  have hDrop : cs.dropWhile Char.isDigit = [] := by
    simpa using @List.dropWhile_append_of_pos _ _ cs [] h
  simp [read?, hSign, hTake, hDrop, takeFraction, readExponent?, hSome]

theorem readsAsZero_iff_of_isNumeral {text : String} (h : isNumeral text = true) :
    readsAsZero text = true ↔ ∀ c ∈ text.toList, c = '0' := by
  obtain ⟨hSome, hDigits⟩ := isNumeral_iff.1 h
  rw [readsAsZero, Decimal.read?_of_digits hSome hDigits, ← natOfDigits_eq_zero_iff hDigits]
  simp [Decimal.roundsToZero, Decimal.mantissa, Decimal.scale]

end ReversePolish.Text
