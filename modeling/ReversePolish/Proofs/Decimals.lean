import Mathlib
import ReversePolish.Proofs.Scanning
import ReversePolish.Rpn

/-!
# The value of a decimal literal

A divisor is zero if the double that its text stands for is. The test never makes that double: it
compares digits with a power of ten, and with no power of ten beyond the number of digits. Here it
is compared with the exact value of the text.

* `Text.Decimal.Spells`: the form of decimal literals. `Text.Decimal.read?_eq_some_iff`: reading
  accepts exactly the texts of that form, so that a text spells at most one literal.
* `Text.Decimal.value`: the rational number that a literal denotes, digit by digit.
* `Text.Decimal.roundsToZero_iff`: the test on a literal compares that number with `2 ^ (-1075)`.
* `Double`, `Double.Rounds`: the finite doubles, and the one that a number is rounded to.
  `Double.exists_rounds_zero_iff`: a number is rounded to zero up to half of the least double, the
  half included.
* `Expr.isZero_leaf_iff`: the zero test on an arbitrary text.
-/

namespace ReversePolish

namespace Text

/-! ## Positional values -/

/-- The number that a digit stands for. -/
def digitValue (c : Char) : Nat := c.toNat - '0'.toNat

/-- The number that the digits stand for, the last one being that of the units. -/
def positional (digits : List Char) : Nat := Nat.ofDigits 10 (digits.reverse.map digitValue)

theorem natOfDigits_eq_positional (digits : List Char) :
    natOfDigits digits = positional digits := by
  rw [positional, Nat.ofDigits_eq_foldr, List.foldr_map, List.foldr_reverse, natOfDigits]
  simp only [digitValue, Nat.cast_id, Nat.add_comm]

theorem positional_lt {digits : List Char} (h : ∀ c ∈ digits, c.isDigit = true) :
    positional digits < 10 ^ digits.length := by
  have hDigits : ∀ n ∈ digits.reverse.map digitValue, n < 10 := by
    intro n hn
    obtain ⟨c, hc, rfl⟩ := List.mem_map.1 hn
    obtain ⟨hLow, hHigh⟩ : 48 ≤ c.toNat ∧ c.toNat ≤ 57 :=
      isDigit_iff.1 (h c (List.mem_reverse.1 hc))
    have hZero : '0'.toNat = 48 := rfl
    rw [digitValue, hZero]
    omega
  simpa [positional] using Nat.ofDigits_lt_base_pow_length (by decide) hDigits

namespace Decimal

/-! ## The form of literals -/

/-- How a sign is written; a plus may be left out. -/
inductive SignText : Bool → List Char → Prop where
  | absent : SignText false []
  | plus : SignText false ['+']
  | minus : SignText true ['-']

/-- How the digits behind the point are written; without any the point may be left out. -/
inductive FractionText : List Char → List Char → Prop where
  | absent : FractionText [] []
  | point (digits : List Char) : FractionText digits ('.' :: digits)

/-- How a power of ten is written: not at all, or as a mark, a sign and at least one digit. -/
inductive ExponentText : Int → List Char → Prop where
  | absent : ExponentText 0 []
  | marked {mark : Char} {negative : Bool} {sign digits : List Char} :
    mark = 'e' ∨ mark = 'E' → SignText negative sign → digits ≠ [] →
      (∀ c ∈ digits, c.isDigit = true) →
      ExponentText (if negative then -(positional digits : Int) else positional digits)
        (mark :: (sign ++ digits))

/-- The text is a way to write the literal: its sign, its digits with the point among them, at least
one of them, and its power of ten. -/
structure Spells (d : Decimal) (text : List Char) : Prop where
  parts : ∃ sign point power, text = sign ++ (d.whole ++ (point ++ power)) ∧
    SignText d.negative sign ∧ FractionText d.fraction point ∧ ExponentText d.exponent power
  digits : ∀ c ∈ d.whole ++ d.fraction, c.isDigit = true
  some_digit : d.whole ++ d.fraction ≠ []

/-- The texts of the doubles that are no finite number: infinity, long or short, and the one that is
no number at all, in capitals or not, with a sign or without. -/
def IsSpecial (text : List Char) : Prop :=
  ∃ negative sign word, SignText negative sign ∧ text = sign ++ word ∧
    word.map Char.toLower ∈ ["inf".toList, "infinity".toList, "nan".toList]

theorem exists_signText (text : List Char) :
    ∃ sign, SignText (takeSign text).1 sign ∧ text = sign ++ (takeSign text).2 := by
  unfold takeSign
  split
  · exact ⟨['+'], .plus, rfl⟩
  · exact ⟨['-'], .minus, rfl⟩
  · exact ⟨[], .absent, rfl⟩

theorem takeSign_append {negative : Bool} {sign rest : List Char} (h : SignText negative sign)
    (hRest : ∀ c ∈ rest.head?, c ≠ '+' ∧ c ≠ '-') : takeSign (sign ++ rest) = (negative, rest) := by
  cases h with
  | plus => rfl
  | minus => rfl
  | absent =>
    rw [List.nil_append]
    unfold takeSign
    split
    · exact absurd rfl (hRest '+' rfl).1
    · exact absurd rfl (hRest '-' rfl).2
    · rfl

theorem exists_fractionText (text : List Char) :
    ∃ point, FractionText (takeFraction text).1 point ∧ text = point ++ (takeFraction text).2 ∧
      ∀ c ∈ (takeFraction text).1, c.isDigit = true := by
  unfold takeFraction
  split
  · rename_i cs
    refine ⟨'.' :: cs.takeWhile Char.isDigit, .point _, by simp, fun c hc => ?_⟩
    exact List.all_eq_true.1 List.all_takeWhile c hc
  · exact ⟨[], .absent, rfl, by simp⟩

theorem takeFraction_of_head {text : List Char} (h : ∀ c ∈ text.head?, c ≠ '.') :
    takeFraction text = ([], text) := by
  unfold takeFraction
  split
  · exact absurd rfl (h '.' rfl)
  · rfl

theorem takeFraction_append {fraction point power : List Char} (h : FractionText fraction point)
    (hDigits : ∀ c ∈ fraction, c.isDigit = true)
    (hPower : ∀ c ∈ power.head?, c = 'e' ∨ c = 'E') :
    takeFraction (point ++ power) = (fraction, power) := by
  cases h with
  | absent =>
    apply takeFraction_of_head
    intro c hc
    rcases hPower c hc with rfl | rfl <;> decide
  | point =>
    have hStop : ∀ c ∈ power.head?, c.isDigit = false := by
      intro c hc
      rcases hPower c hc with rfl | rfl <;> decide
    obtain ⟨hTake, hDrop⟩ := Lexeme.takeWhile_dropWhile_run hDigits hStop
    rw [List.cons_append, takeFraction, hTake, hDrop]

theorem ExponentText.head_eq {exponent : Int} {power : List Char}
    (h : ExponentText exponent power) :
    ∀ c ∈ power.head?, c = 'e' ∨ c = 'E' := by
  intro c hc
  cases h with
  | absent => cases hc
  | marked hMark =>
    cases hc
    exact hMark

theorem readExponent?_eq_some_iff {power : List Char} {exponent : Int} :
    readExponent? power = some exponent ↔ ExponentText exponent power := by
  have hForm : ∀ mark cs, readExponent? (mark :: cs) = some exponent ↔
      ((mark = 'e' ∨ mark = 'E') ∧ (takeSign cs).2 ≠ [] ∧ ∀ c ∈ (takeSign cs).2, c.isDigit = true) ∧
        (if (takeSign cs).1 then -(positional (takeSign cs).2 : Int)
          else positional (takeSign cs).2) = exponent := by
    intro mark cs
    simp [readExponent?, natOfDigits_eq_positional, and_assoc]
  constructor
  · intro h
    cases power with
    | nil =>
      cases h
      exact .absent
    | cons mark cs =>
      obtain ⟨⟨hMark, hSome, hDigits⟩, rfl⟩ := (hForm mark cs).1 h
      obtain ⟨sign, hSign, hText⟩ := exists_signText cs
      generalize takeSign cs = signed at *
      subst hText
      exact .marked hMark hSign hSome hDigits
  · intro h
    cases h with
    | absent => rfl
    | @marked mark negative sign digits hMark hSign hSome hDigits =>
      have hTake : takeSign (sign ++ digits) = (negative, digits) := by
        refine takeSign_append hSign fun c hc => ?_
        have hDigit := hDigits c (List.mem_of_head? hc)
        constructor <;> rintro rfl <;> cases hDigit
      rw [hForm, hTake]
      exact ⟨⟨hMark, hSome, hDigits⟩, rfl⟩

/-! ## Reading -/

/-- Behind its sign a literal starts with a digit or with the point. -/
theorem isDigit_or_point_of_head {d : Decimal} {point power : List Char}
    (hDigits : ∀ c ∈ d.whole ++ d.fraction, c.isDigit = true) (hSome : d.whole ++ d.fraction ≠ [])
    (hPoint : FractionText d.fraction point) :
    ∀ c ∈ (d.whole ++ (point ++ power)).head?, c.isDigit = true ∨ c = '.' := by
  intro c hc
  cases hWhole : d.whole with
  | cons digit digits =>
    rw [hWhole] at hc hDigits
    cases hc
    exact Or.inl (hDigits _ (by simp))
  | nil =>
    rw [hWhole] at hc hSome
    generalize d.fraction = fraction at *
    cases hPoint with
    | absent => exact absurd rfl hSome
    | point =>
      cases hc
      exact Or.inr rfl

theorem read?_of_spells {d : Decimal} {text : List Char} (h : d.Spells text) :
    read? text = some d := by
  obtain ⟨sign, point, power, rfl, hSign, hPoint, hPower⟩ := h.parts
  have hDigits := List.forall_mem_append.1 h.digits
  have hUnsigned : takeSign (sign ++ (d.whole ++ (point ++ power))) =
      (d.negative, d.whole ++ (point ++ power)) := by
    refine takeSign_append hSign fun c hc => ?_
    rcases isDigit_or_point_of_head h.digits h.some_digit hPoint c hc with hDigit | rfl
    · constructor <;> rintro rfl <;> cases hDigit
    · decide
  have hBehind : ∀ c ∈ (point ++ power).head?, c.isDigit = false := by
    intro c hc
    have hMark := hPower.head_eq c
    generalize d.fraction = fraction at hPoint
    cases hPoint with
    | absent => rcases hMark hc with rfl | rfl <;> rfl
    | point =>
      cases hc
      rfl
  obtain ⟨hTake, hDrop⟩ := Lexeme.takeWhile_dropWhile_run hDigits.1 hBehind
  have hFraction := takeFraction_append hPoint hDigits.2 hPower.head_eq
  have hSome : ¬ (d.whole = [] ∧ d.fraction = []) := by
    rw [← List.append_eq_nil_iff]
    exact h.some_digit
  simp [read?, hUnsigned, hTake, hDrop, hFraction, readExponent?_eq_some_iff.2 hPower, hSome]

theorem spells_of_read? {d : Decimal} {text : List Char} (h : read? text = some d) :
    d.Spells text := by
  obtain ⟨sign, hSign, hText⟩ := exists_signText text
  obtain ⟨point, hPoint, hBehind, hFraction⟩ :=
    exists_fractionText ((takeSign text).2.dropWhile Char.isDigit)
  have hWhole : ∀ c ∈ (takeSign text).2.takeWhile Char.isDigit, c.isDigit = true :=
    fun c hc => List.all_eq_true.1 List.all_takeWhile c hc
  have hUnsigned := @List.takeWhile_append_dropWhile _ Char.isDigit (takeSign text).2
  simp only [read?, Option.ite_none_left_eq_some, Option.map_eq_some_iff] at h
  obtain ⟨hSome, exponent, hPower, rfl⟩ := h
  refine ⟨⟨sign, point, _, ?_, hSign, hPoint, readExponent?_eq_some_iff.1 hPower⟩, ?_, ?_⟩
  · rw [← hBehind, hUnsigned]
    exact hText
  · exact List.forall_mem_append.2 ⟨hWhole, hFraction⟩
  · simpa using hSome

theorem read?_eq_some_iff {d : Decimal} {text : List Char} :
    read? text = some d ↔ d.Spells text :=
  ⟨spells_of_read?, read?_of_spells⟩

theorem IsSpecial.exists_letter {text : List Char} (h : IsSpecial text) :
    ∃ negative sign c cs, SignText negative sign ∧ text = sign ++ c :: cs ∧ c.isAlpha = true := by
  obtain ⟨negative, sign, word, hSign, rfl, hWord⟩ := h
  cases word with
  | nil => simp at hWord
  | cons c cs =>
    have hHead : c.toLower = 'i' ∨ c.toLower = 'n' := by
      simp only [List.map_cons, List.mem_cons, List.not_mem_nil, or_false] at hWord
      rcases hWord with hWord | hWord | hWord
      · exact Or.inl (List.cons.inj hWord).1
      · exact Or.inl (List.cons.inj hWord).1
      · exact Or.inr (List.cons.inj hWord).1
    refine ⟨negative, sign, c, cs, hSign, rfl, ?_⟩
    rw [← Char.isAlpha_toLower_eq_isAlpha]
    rcases hHead with hHead | hHead <;> rw [hHead] <;> rfl

theorem read?_of_isSpecial {text : List Char} (h : IsSpecial text) : read? text = none := by
  obtain ⟨negative, sign, c, cs, hSign, rfl, hLetter⟩ := h.exists_letter
  have hNot : ∀ d : Char, d.isAlpha = false → c ≠ d := by
    rintro d hd rfl
    rw [hLetter] at hd
    cases hd
  have hDigit : c.isDigit = false := by
    rw [Bool.eq_false_iff]
    intro hDigit
    have hHigh : c.toNat ≤ 57 := (isDigit_iff.1 hDigit).2
    have hLow : 65 ≤ c.toNat ∨ 97 ≤ c.toNat := by
      simp only [Char.isAlpha, Char.isUpper, Char.isLower, Bool.or_eq_true, Bool.and_eq_true,
        decide_eq_true_eq] at hLetter
      exact hLetter.imp And.left And.left
    omega
  have hUnsigned : takeSign (sign ++ c :: cs) = (negative, c :: cs) := by
    refine takeSign_append hSign fun d hd => ?_
    cases hd
    exact ⟨hNot '+' rfl, hNot '-' rfl⟩
  have hFraction : takeFraction (c :: cs) = ([], c :: cs) := by
    refine takeFraction_of_head fun d hd => ?_
    cases hd
    exact hNot '.' rfl
  simp [read?, hUnsigned, hDigit, hFraction]

/-! ## The size of the value -/

/-- The number that the literal denotes. -/
def value (d : Decimal) : ℚ :=
  (if d.negative then -1 else 1) * positional (d.whole ++ d.fraction) *
    10 ^ (d.exponent - d.fraction.length)

theorem mantissa_eq_positional (d : Decimal) : d.mantissa = positional (d.whole ++ d.fraction) :=
  natOfDigits_eq_positional _

theorem abs_value (d : Decimal) : |d.value| = d.mantissa * (10 : ℚ) ^ d.scale := by
  have hPower : (0 : ℚ) < 10 ^ d.scale := zpow_pos (by norm_num) _
  have hSign : |(if d.negative then -1 else 1 : ℚ)| = 1 := by
    split <;> norm_num
  rw [value, ← mantissa_eq_positional, abs_mul, abs_mul, hSign, one_mul, Nat.abs_cast,
    ← scale, abs_of_pos hPower]

theorem mantissa_lt {d : Decimal} (h : ∀ c ∈ d.whole ++ d.fraction, c.isDigit = true) :
    d.mantissa < 10 ^ d.width := by
  rw [mantissa_eq_positional, width, ← List.length_append]
  exact positional_lt h

theorem le_two_zpow_iff {m k n : Nat} :
    (m : ℚ) * 10 ^ (Int.negSucc k) ≤ 2 ^ (-(n : ℤ)) ↔ m * Nat.pow 2 n ≤ Nat.pow 10 (k + 1) := by
  rw [zpow_negSucc, zpow_neg, zpow_natCast, ← div_eq_mul_inv, div_le_iff₀ (by positivity),
    ← div_eq_inv_mul, le_div_iff₀ (by positivity), Nat.pow_eq, Nat.pow_eq]
  norm_cast

/-- A number of few digits is below the bound if the power of ten that divides it is large. -/
theorem mul_two_pow_le {m k n width excess : Nat} (hWidth : m < 10 ^ width)
    (hExcess : Nat.pow 2 n ≤ Nat.pow 10 excess) (h : width + excess ≤ k + 1) :
    m * Nat.pow 2 n ≤ Nat.pow 10 (k + 1) :=
  calc m * Nat.pow 2 n ≤ 10 ^ width * 10 ^ excess := Nat.mul_le_mul hWidth.le hExcess
    _ = 10 ^ (width + excess) := (pow_add 10 width excess).symm
    _ ≤ 10 ^ (k + 1) := Nat.pow_le_pow_right (by decide) h

/-- The test that does not compute large powers of ten. -/
theorem short_test_iff {m k n width excess : Nat} (hWidth : m < 10 ^ width)
    (hExcess : Nat.pow 2 n ≤ Nat.pow 10 excess) :
    (decide (width + excess ≤ k + 1) || decide (m * Nat.pow 2 n ≤ Nat.pow 10 (k + 1))) = true ↔
      (m : ℚ) * 10 ^ (Int.negSucc k) ≤ 2 ^ (-(n : ℤ)) := by
  rw [le_two_zpow_iff, Bool.or_eq_true, decide_eq_true_eq, decide_eq_true_eq]
  exact or_iff_right_of_imp (mul_two_pow_le hWidth hExcess)

theorem roundsToZero_of_mantissa {d : Decimal} (h : d.mantissa = 0) : d.roundsToZero = true := by
  rw [roundsToZero, h, beq_self_eq_true, Bool.true_or]

theorem roundsToZero_iff {d : Decimal} (h : ∀ c ∈ d.whole ++ d.fraction, c.isDigit = true) :
    d.roundsToZero = true ↔ |d.value| ≤ 2 ^ (-1075 : ℤ) := by
  have hPositive : (0 : ℚ) < 2 ^ (-1075 : ℤ) := zpow_pos (by norm_num) _
  by_cases hZero : d.mantissa = 0
  · have hValue : |d.value| = 0 := by rw [abs_value, hZero, Nat.cast_zero, zero_mul]
    rw [hValue]
    exact iff_of_true (roundsToZero_of_mantissa hZero) hPositive.le
  · rw [abs_value, roundsToZero]
    cases d.scale with
    | ofNat k =>
      -- A whole number that is not zero is far above the bound.
      have hLeast : (1 : ℚ) ≤ d.mantissa * 10 ^ (Int.ofNat k) := by
        have hPower : 1 ≤ d.mantissa * 10 ^ k :=
          Nat.mul_pos (Nat.pos_of_ne_zero hZero) (Nat.pow_pos (by decide))
        rw [Int.ofNat_eq_natCast, zpow_natCast]
        exact_mod_cast hPower
      have hBound : (2 : ℚ) ^ (-1075 : ℤ) < 1 := zpow_lt_one_of_neg₀ (by norm_num) (by decide)
      exact iff_of_false (by simp [hZero]) (not_le.2 (hBound.trans_le hLeast))
    | negSucc k =>
      have hExcess : Nat.pow 2 1075 ≤ Nat.pow 10 324 := by decide +kernel
      have hPower : (-1075 : ℤ) = -((1075 : ℕ) : ℤ) := rfl
      rw [beq_false_of_ne hZero, Bool.false_or, hPower]
      -- The two powers are too large to be computed with, and only their order counts.
      generalize 1075 = n at hExcess ⊢
      generalize 324 = excess at hExcess ⊢
      exact short_test_iff (mantissa_lt h) hExcess

end Decimal

end Text

/-! ## Doubles -/

/-- A finite double: a whole number of at most 53 bits times a power of two. It has all the 53 bits,
unless the power is the least. -/
structure Double where
  significand : ℤ
  exponent : ℤ
  significand_lt : |significand| < 2 ^ 53
  le_exponent : -1074 ≤ exponent
  exponent_le : exponent ≤ 971
  normal : exponent = -1074 ∨ 2 ^ 52 ≤ |significand|

namespace Double

/-- The number that the double stands for. -/
def value (x : Double) : ℚ := x.significand * 2 ^ x.exponent

/-- The number is rounded to the double: none is nearer, and if another one is as near, the double
has an even significand. -/
structure Rounds (v : ℚ) (x : Double) : Prop where
  nearest : ∀ y : Double, |v - x.value| ≤ |v - y.value|
  even : ∀ y : Double, y.value ≠ x.value → |v - y.value| = |v - x.value| → Even x.significand

/-- The doubles at the least exponent. -/
def subnormal (significand : ℤ) (h : |significand| < 2 ^ 53) : Double :=
  ⟨significand, -1074, h, le_rfl, by decide, Or.inl rfl⟩

/-- The least positive number that is a double. -/
def least : ℚ := 2 ^ (-1074 : ℤ)

theorem least_pos : 0 < least := zpow_pos (by norm_num) _

theorem two_zpow_eq_least_div : (2 : ℚ) ^ (-1075 : ℤ) = least / 2 := by
  rw [least, div_eq_mul_inv, ← zpow_neg_one, ← zpow_add₀ (by norm_num)]
  norm_num

theorem exists_eq_mul_least (x : Double) :
    ∃ n : Nat, x.value = ((x.significand * 2 ^ n : ℤ) : ℚ) * least := by
  obtain ⟨n, hn⟩ := Int.le.dest x.le_exponent
  refine ⟨n, ?_⟩
  rw [value, ← hn, zpow_add₀ (by norm_num), zpow_natCast, ← least]
  push_cast
  ring

/-- A double that is not zero is at least as large as the least one, and only an odd significand
makes it as small. -/
theorem least_le_abs_value {x : Double} (h : x.value ≠ 0) :
    least ≤ |x.value| ∧ (|x.value| = least → ¬ Even x.significand) := by
  obtain ⟨n, hn⟩ := x.exists_eq_mul_least
  have hAbs : |x.value| = (|x.significand * 2 ^ n| : ℤ) * least := by
    rw [hn, abs_mul, abs_of_pos least_pos, Int.cast_abs]
  have hMultiple : x.significand * 2 ^ n ≠ 0 := by
    intro hZero
    rw [hn, hZero, Int.cast_zero, zero_mul] at h
    exact h rfl
  constructor
  · have hOne : (1 : ℚ) ≤ (|x.significand * 2 ^ n| : ℤ) := by
      exact_mod_cast Int.one_le_abs hMultiple
    rw [hAbs]
    exact le_mul_of_one_le_left least_pos.le hOne
  · intro hLeast hEven
    have hUnit : |x.significand * 2 ^ n| = 1 := by
      have hMul : ((|x.significand * 2 ^ n| : ℤ) : ℚ) * least = 1 * least := by
        rw [← hAbs, hLeast, one_mul]
      exact_mod_cast mul_right_cancel₀ least_pos.ne' hMul
    have hOdd : ¬ Even (x.significand * 2 ^ n) := by
      rw [← even_abs, hUnit]
      decide
    exact hOdd (hEven.mul_right _)

/-- The zero. -/
def zero : Double := subnormal 0 (by decide)

theorem value_zero : zero.value = 0 := by
  simp [value, zero, subnormal]

theorem value_subnormal_one : (subnormal 1 (by decide)).value = least := by
  simp [value, subnormal, least]

theorem value_subnormal_neg_one : (subnormal (-1) (by decide)).value = -least := by
  simp [value, subnormal, least]

theorem abs_le_of_rounds {v : ℚ} {x : Double} (h : Rounds v x) (hZero : x.value = 0) :
    |v| ≤ least / 2 := by
  have hPositive := least_pos
  have hUp := h.nearest (subnormal 1 (by decide))
  have hDown := h.nearest (subnormal (-1) (by decide))
  rw [hZero, value_subnormal_one, sub_zero] at hUp
  rw [hZero, value_subnormal_neg_one, sub_zero] at hDown
  rcases abs_cases v with ⟨hAbs, hSign⟩ | ⟨hAbs, hSign⟩
  · rcases abs_cases (v - least) with ⟨hDistance, -⟩ | ⟨hDistance, -⟩ <;> linarith
  · rcases abs_cases (v - -least) with ⟨hDistance, -⟩ | ⟨hDistance, -⟩ <;> linarith

theorem rounds_zero {v : ℚ} (h : |v| ≤ least / 2) : Rounds v zero := by
  refine ⟨fun y => ?_, fun _ _ _ => Even.zero⟩
  rw [value_zero, sub_zero]
  by_cases hy : y.value = 0
  · rw [hy, sub_zero]
  · have hLeast := (least_le_abs_value hy).1
    have hTriangle := abs_sub_abs_le_abs_sub y.value v
    rw [abs_sub_comm] at hTriangle
    linarith

theorem value_eq_zero_of_rounds {v : ℚ} {x : Double} (h : Rounds v x) (hv : |v| ≤ least / 2) :
    x.value = 0 := by
  by_contra hx
  obtain ⟨hLeast, hOdd⟩ := least_le_abs_value hx
  have hNear := h.nearest zero
  have hTriangle := abs_sub_abs_le_abs_sub x.value v
  rw [abs_sub_comm] at hTriangle
  rw [value_zero, sub_zero] at hNear
  -- The double is as near as zero, which leaves it to the parity of its significand.
  refine hOdd (by linarith) (h.even zero ?_ ?_)
  · rw [value_zero]
    exact Ne.symm hx
  · rw [value_zero, sub_zero]
    linarith

/-- A number is rounded to zero if and only if it is at most half of the least double. -/
theorem exists_rounds_zero_iff {v : ℚ} :
    (∃ x, Rounds v x ∧ x.value = 0) ↔ |v| ≤ 2 ^ (-1075 : ℤ) := by
  rw [two_zpow_eq_least_div]
  constructor
  · rintro ⟨x, hRounds, hZero⟩
    exact abs_le_of_rounds hRounds hZero
  · intro h
    exact ⟨zero, rounds_zero h, value_zero⟩

end Double

/-! ## The zero test -/

/-- **The zero test is exact.** A text counts as zero if and only if it is a decimal literal whose
value is at most `2 ^ (-1075)` in size. The text fixes the literal, and up to that size its value is
rounded to zero, beyond it to no zero. Hence a literal with no digit but zeros counts as zero
whatever its power of ten, a text for infinity or for no number does not, and of a numeral the
digits alone decide. -/
theorem Expr.isZero_leaf_iff (text : String) (offset : Nat) :
    ((Expr.leaf text offset).isZero = true ↔
        ∃ d : Text.Decimal, d.Spells text.toList ∧ |d.value| ≤ 2 ^ (-1075 : ℤ)) ∧
      (∀ d d' : Text.Decimal, d.Spells text.toList → d'.Spells text.toList → d = d') ∧
      (∀ d : Text.Decimal, d.Spells text.toList →
        (|d.value| ≤ 2 ^ (-1075 : ℤ) ↔ ∃ x, Double.Rounds d.value x ∧ x.value = 0) ∧
        (|d.value| ≤ 2 ^ (-1075 : ℤ) → ∀ x, Double.Rounds d.value x → x.value = 0) ∧
        ((∀ c ∈ d.whole ++ d.fraction, c = '0') → (Expr.leaf text offset).isZero = true)) ∧
      (Text.Decimal.IsSpecial text.toList → (Expr.leaf text offset).isZero = false) ∧
      (text ≠ "" → (∀ c ∈ text.toList, c.isDigit = true) →
        ((Expr.leaf text offset).isZero = true ↔ ∀ c ∈ text.toList, c = '0')) := by
  have hTest : (Expr.leaf text offset).isZero =
      (Text.Decimal.read? text.toList).any Text.Decimal.roundsToZero := rfl
  have hZero : (Expr.leaf text offset).isZero = true ↔
      ∃ d : Text.Decimal, d.Spells text.toList ∧ |d.value| ≤ 2 ^ (-1075 : ℤ) := by
    rw [hTest, Option.any_eq_true]
    refine exists_congr fun d => ?_
    rw [Text.Decimal.read?_eq_some_iff]
    exact and_congr_right fun hSpells => Text.Decimal.roundsToZero_iff hSpells.digits
  refine ⟨hZero, fun d d' hSpells hSpells' => ?_, fun d hSpells => ⟨?_, ?_, fun hZeros => ?_⟩,
    fun hSpecial => ?_, fun hSome hDigits => ?_⟩
  · rw [← Text.Decimal.read?_eq_some_iff] at hSpells hSpells'
    exact Option.some.inj (hSpells.symm.trans hSpells')
  · exact Double.exists_rounds_zero_iff.symm
  · intro hBound x hRounds
    rw [Double.two_zpow_eq_least_div] at hBound
    exact Double.value_eq_zero_of_rounds hRounds hBound
  · have hMantissa : d.mantissa = 0 := (Text.natOfDigits_eq_zero_iff hSpells.digits).2 hZeros
    rw [hTest, Text.Decimal.read?_of_spells hSpells]
    exact Text.Decimal.roundsToZero_of_mantissa hMantissa
  · rw [hTest, Text.Decimal.read?_of_isSpecial hSpecial]
    rfl
  · refine Text.readsAsZero_iff_of_isNumeral (Text.isNumeral_iff.2 ⟨?_, hDigits⟩)
    simpa using hSome

/-- The two literals of two digits next to the bound. Zeros alone make a zero whatever power of ten
they are raised to, which neither infinity nor a zero before another digit is. -/
theorem Expr.isZero_leaf_iff_bound :
    (∃ x, Double.Rounds (Text.Decimal.value ⟨true, ['2'], ['4'], -324⟩) x ∧ x.value = 0) ∧
      ¬ |Text.Decimal.value ⟨true, ['2'], ['5'], -324⟩| ≤ 2 ^ (-1075 : ℤ) ∧
      (Expr.leaf "-.0e+1000000000000" 0).isZero = true ∧
      (Expr.leaf "+Infinity" 0).isZero = false ∧ (Expr.leaf "010" 0).isZero ≠ true := by
  have hBelow : (⟨true, ['2'], ['4'], -324⟩ : Text.Decimal).Spells "-2.4e-324".toList :=
    Text.Decimal.spells_of_read? (by decide)
  have hAbove : (⟨true, ['2'], ['5'], -324⟩ : Text.Decimal).Spells "-2.5e-324".toList :=
    Text.Decimal.spells_of_read? (by decide)
  have hZeros : (⟨true, [], ['0'], 1000000000000⟩ : Text.Decimal).Spells
      "-.0e+1000000000000".toList :=
    Text.Decimal.spells_of_read? (by decide)
  refine ⟨?_, fun hBound => ?_, ?_, ?_, ?_⟩
  · obtain ⟨hZero, hUnique, hRounded, -⟩ := isZero_leaf_iff "-2.4e-324" 0
    obtain ⟨d, hSpells, hBound⟩ := hZero.1 (by decide +kernel)
    rw [hUnique d _ hSpells hBelow] at hBound
    exact (hRounded _ hBelow).1.1 hBound
  · have hZero := (isZero_leaf_iff "-2.5e-324" 0).1.2 ⟨_, hAbove, hBound⟩
    exact absurd hZero (by decide +kernel)
  · exact ((isZero_leaf_iff "-.0e+1000000000000" 0).2.2.1 _ hZeros).2.2 (by simp)
  · exact (isZero_leaf_iff "+Infinity" 0).2.2.2.1
      ⟨false, ['+'], "Infinity".toList, .plus, rfl, by decide⟩
  · rw [Ne, (isZero_leaf_iff "010" 0).2.2.2.2 (by decide) (by simp)]
    simp

end ReversePolish
