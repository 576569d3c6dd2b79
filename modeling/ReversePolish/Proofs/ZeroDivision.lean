import Mathlib
import ReversePolish.Proofs.Compiling

/-!
# Divisions by zero among the tokens

A division by zero is found on the expression, operands before their operator, after the parentheses
are gone. Here it is found on the tokens: a division sign, and behind it a number that reads as zero
in any number of parentheses.

* `StartsWithZero`, `ZeroDivisionAt`: the form of such a place among the tokens.
* `startsWithZero_iff`: tokens that go on with a factor start with a zero if and only if the factor
  is a number that reads as zero. The reading of a factor is fixed by the tokens it starts with
  (`Expr.factor_unique`), so no other cut of the tokens can matter.
* `FirstZeroDivision`: the offset of the leftmost such place, said by recursion on the tokens.
* `firstZeroDivision_of_derives`: what the walk of the expression finds first stands leftmost among
  the tokens. A division by zero has no node below it on the right, so that no offending node stands
  both before another in the walk and behind it among the tokens.
* `lower_eq_error_iff_zeroDivisionAt`: which tokens are refused, with which error, and where.
-/

namespace ReversePolish

/-- The tokens start with a number that reads as zero, in any number of parentheses. -/
def StartsWithZero (tokens : List Token) : Prop :=
  ∃ (opening : List Token) (zero : Token) (closing rest : List Token),
    tokens = opening ++ zero :: (closing ++ rest) ∧
      (∀ t ∈ opening, t.isParen "(" = true) ∧ (∀ t ∈ closing, t.isParen ")" = true) ∧
      opening.length = closing.length ∧ zero.kind = .number ∧ Text.readsAsZero zero.text = true

/-- A division sign stands at position `i`, and behind it a number that reads as zero. -/
def ZeroDivisionAt (tokens : List Token) (i : Nat) : Prop :=
  ∃ t, tokens[i]? = some t ∧ t.isOperator "/" = true ∧ StartsWithZero (tokens.drop (i + 1))

/-! ## Numbers in parentheses -/

theorem derives_parens {l : List Token} {a : Expr} (h : Derives .factor l a)
    (opening closing : List Token) (hOpen : ∀ t ∈ opening, t.isParen "(" = true)
    (hClose : ∀ t ∈ closing, t.isParen ")" = true) (hLength : opening.length = closing.length) :
    Derives .factor (opening ++ (l ++ closing)) a := by
  induction opening generalizing closing with
  | nil =>
    have hNil : closing = [] := List.length_eq_zero_iff.1 hLength.symm
    simpa [hNil] using h
  | cons first opening ih =>
    -- The first parenthesis to open is the last to close.
    rcases List.eq_nil_or_concat closing with rfl | ⟨inner, last, rfl⟩
    · cases hLength
    · have hInner := ih inner (fun t ht => hOpen t (List.mem_cons_of_mem first ht))
        (fun t ht => hClose t (by simp [ht])) (by simpa using hLength)
      have hWhole : Derives .factor (first :: (opening ++ (l ++ inner) ++ [last])) a :=
        .paren (hOpen first List.mem_cons_self) (.ofProduct (.ofFactor hInner))
          (hClose last (by simp))
      simpa using hWhole

theorem parens_of_derives_leaf {rank : Rank} {tokens : List Token} {text : String} {offset : Nat}
    (h : Derives rank tokens (.leaf text offset)) :
    ∃ (opening : List Token) (t : Token) (closing : List Token),
      tokens = opening ++ t :: closing ∧ (∀ t ∈ opening, t.isParen "(" = true) ∧
        (∀ t ∈ closing, t.isParen ")" = true) ∧ opening.length = closing.length ∧
        t.kind = .number ∧ t.text = text := by
  generalize hLeaf : Expr.leaf text offset = e at h
  induction h with
  | sum => cases hLeaf
  | product => cases hLeaf
  | ofProduct _ ih => exact ih hLeaf
  | ofFactor _ ih => exact ih hLeaf
  | @number t hKind =>
    cases hLeaf
    exact ⟨[], t, [], rfl, by simp, by simp, rfl, hKind, rfl⟩
  | @paren l a first last hOpen _ hClose ih =>
    obtain ⟨opening, t, closing, rfl, hOpening, hClosing, hLength, hKind, hText⟩ := ih hLeaf
    refine ⟨first :: opening, t, closing ++ [last], by simp, ?_, ?_, by simp [hLength], hKind,
      hText⟩
    · exact List.forall_mem_cons.2 ⟨hOpen, hOpening⟩
    · intro u hu
      rcases List.mem_append.1 hu with hu | hu
      · exact hClosing u hu
      · rw [List.mem_singleton.1 hu]
        exact hClose

/-- Two factors at the front of the same tokens are the same expression. -/
theorem Expr.factor_unique {l r restL restR : List Token} {a b : Expr} (hl : Derives .factor l a)
    (hr : Derives .factor r b) (hSame : l ++ restL = r ++ restR) : a = b := by
  obtain ⟨hLt, hLeft⟩ := rule_of_derives 0 hl (Rank.stopsAt_factor restL.head?)
  have hRight : ∃ h, rule .factor 0 (l ++ restL) = .ok ⟨b, restR, h⟩ :=
    hSame ▸ rule_of_derives 0 hr (Rank.stopsAt_factor restR.head?)
  obtain ⟨hLt', hRight⟩ := hRight
  rw [hLeft] at hRight
  injection hRight with hParsed
  injection hParsed

theorem startsWithZero_iff {tokens : List Token} {e : Expr} (h : Derives .factor tokens e)
    (rest : List Token) : StartsWithZero (tokens ++ rest) ↔ e.isZero = true := by
  constructor
  · rintro ⟨opening, zero, closing, rest', hTokens, hOpen, hClose, hLength, hKind, hZero⟩
    have hFactor := derives_parens (.number hKind) opening closing hOpen hClose hLength
    have hCut : tokens ++ rest = opening ++ ([zero] ++ closing) ++ rest' := by simp [hTokens]
    rw [Expr.factor_unique h hFactor hCut]
    exact hZero
  · intro hZero
    cases e with
    | binary op lhs rhs offset => cases hZero
    | leaf text offset =>
      obtain ⟨opening, t, closing, rfl, hOpen, hClose, hLength, hKind, rfl⟩ :=
        parens_of_derives_leaf h
      exact ⟨opening, t, closing, rest, by simp, hOpen, hClose, hLength, hKind, hZero⟩

/-! ## The leftmost place -/

@[simp]
theorem zeroDivisionAt_cons_zero {t : Token} {tokens : List Token} :
    ZeroDivisionAt (t :: tokens) 0 ↔ t.isOperator "/" = true ∧ StartsWithZero tokens := by
  simp [ZeroDivisionAt]

@[simp]
theorem zeroDivisionAt_cons_succ {t : Token} {tokens : List Token} {i : Nat} :
    ZeroDivisionAt (t :: tokens) (i + 1) ↔ ZeroDivisionAt tokens i := by
  simp [ZeroDivisionAt]

/-- The offset of the leftmost division by zero among the tokens, if there is one. -/
inductive FirstZeroDivision : List Token → Option Nat → Prop where
  | nil : FirstZeroDivision [] none
  | here {t : Token} {tokens : List Token} :
    t.isOperator "/" = true → StartsWithZero tokens →
      FirstZeroDivision (t :: tokens) (some t.offset)
  | later {t : Token} {tokens : List Token} {found : Option Nat} :
    (t.isOperator "/" = true → ¬ StartsWithZero tokens) → FirstZeroDivision tokens found →
      FirstZeroDivision (t :: tokens) found

namespace FirstZeroDivision

theorem not_zeroDivisionAt {tokens : List Token} {found : Option Nat}
    (h : FirstZeroDivision tokens found) (hNone : found = none) :
    ∀ i, ¬ ZeroDivisionAt tokens i := by
  induction h with
  | nil => simp [ZeroDivisionAt]
  | here => cases hNone
  | later hNot _ ih =>
    intro i hAt
    cases i with
    | zero =>
      obtain ⟨hSlash, hZero⟩ := zeroDivisionAt_cons_zero.1 hAt
      exact hNot hSlash hZero
    | succ i => exact ih hNone i (zeroDivisionAt_cons_succ.1 hAt)

theorem exists_leftmost {tokens : List Token} {found : Option Nat} {offset : Nat}
    (h : FirstZeroDivision tokens found) (hSome : found = some offset) :
    ∃ i t, tokens[i]? = some t ∧ t.offset = offset ∧ ZeroDivisionAt tokens i ∧
      ∀ j < i, ¬ ZeroDivisionAt tokens j := by
  induction h with
  | nil => cases hSome
  | @here t tokens hSlash hZero =>
    exact ⟨0, t, rfl, Option.some.inj hSome, zeroDivisionAt_cons_zero.2 ⟨hSlash, hZero⟩, by simp⟩
  | @later t tokens found hNot _ ih =>
    obtain ⟨i, u, hGet, hOffset, hAt, hLeft⟩ := ih hSome
    refine ⟨i + 1, u, by simpa using hGet, hOffset, zeroDivisionAt_cons_succ.2 hAt, ?_⟩
    intro j hj hAtJ
    cases j with
    | zero =>
      obtain ⟨hSlash, hZero⟩ := zeroDivisionAt_cons_zero.1 hAtJ
      exact hNot hSlash hZero
    | succ j => exact hLeft j (by omega) (zeroDivisionAt_cons_succ.1 hAtJ)

end FirstZeroDivision

theorem Token.isOperator_div_iff {t : Token} {op : Op} (h : t.isOperator op.symbol = true) :
    t.isOperator "/" = true ↔ op = .div := by
  constructor
  · intro hSlash
    have hText := (Token.isOperator_iff.1 h).2.symm.trans (Token.isOperator_iff.1 hSlash).2
    exact Op.symbol_inj.1 hText
  · rintro rfl
    exact h

/-- One operator with the tokens of its right operand behind it: the division comes first among
the tokens and last in the walk, which is the same because a zero divisor holds no division. -/
theorem firstZeroDivision_operator {t : Token} {op : Op} {r rest : List Token} {b : Expr}
    {found : Option Nat} (hSymbol : t.isOperator op.symbol = true)
    (hFactor : op = .div → Derives .factor r b)
    (hRight : FirstZeroDivision (r ++ rest) (b.zeroDivision? <|> found)) :
    FirstZeroDivision (t :: (r ++ rest))
      ((b.zeroDivision? <|> if op = .div ∧ b.isZero then some t.offset else none) <|> found) := by
  by_cases hZero : op = .div ∧ b.isZero = true
  · obtain ⟨hDiv, hLeaf⟩ := hZero
    have hHere := FirstZeroDivision.here ((Token.isOperator_div_iff hSymbol).2 hDiv)
      ((startsWithZero_iff (hFactor hDiv) rest).2 hLeaf)
    cases b with
    | binary op lhs rhs offset => cases hLeaf
    | leaf text offset => simpa [hDiv, hLeaf, Expr.zeroDivision?] using hHere
  · have hLater : FirstZeroDivision (t :: (r ++ rest)) (b.zeroDivision? <|> found) := by
      refine .later (fun hSlash hStarts => hZero ?_) hRight
      have hDiv := (Token.isOperator_div_iff hSymbol).1 hSlash
      exact ⟨hDiv, (startsWithZero_iff (hFactor hDiv) rest).1 hStarts⟩
    simpa [hZero] using hLater

/-- What the walk of the expression finds first stands leftmost among its tokens, and what follows
them counts only if they hold nothing. -/
theorem firstZeroDivision_of_derives {rank : Rank} {tokens : List Token} {e : Expr}
    (h : Derives rank tokens e) {rest : List Token} {found : Option Nat}
    (hRest : FirstZeroDivision rest found) :
    FirstZeroDivision (tokens ++ rest) (e.zeroDivision? <|> found) := by
  induction h generalizing rest found with
  | @sum l r a b t op _ hRank hSymbol hRight ihLeft ihRight =>
    have hNotDiv : op ≠ .div := by
      rintro rfl
      cases hRank
    have hTail := firstZeroDivision_operator hSymbol (fun hDiv => (hNotDiv hDiv).elim)
      (ihRight hRest)
    simpa [Expr.zeroDivision?, Option.or_assoc] using ihLeft hTail
  | ofProduct _ ih => exact ih hRest
  | @product l r a b t op _ hRank hSymbol hRight ihLeft ihRight =>
    have hTail := firstZeroDivision_operator hSymbol (fun _ => hRight) (ihRight hRest)
    simpa [Expr.zeroDivision?, Option.or_assoc] using ihLeft hTail
  | ofFactor _ ih => exact ih hRest
  | @number t hKind =>
    refine .later (fun hSlash => ?_) hRest
    rw [(Token.isOperator_iff.1 hSlash).1] at hKind
    cases hKind
  | @paren l a opening closing hOpen _ hClose ih =>
    have hParen : ∀ {t : Token} {symbol : String}, t.isParen symbol = true →
        t.isOperator "/" = true → False := by
      intro t symbol h hSlash
      have hKind := (Token.isParen_iff.1 h).1.symm.trans (Token.isOperator_iff.1 hSlash).1
      cases hKind
    have hTail : FirstZeroDivision (closing :: rest) found :=
      .later (fun hSlash => (hParen hClose hSlash).elim) hRest
    have hWhole :
        FirstZeroDivision (opening :: (l ++ closing :: rest)) (a.zeroDivision? <|> found) :=
      .later (fun hSlash => (hParen hOpen hSlash).elim) (ih hTail)
    simpa using hWhole

/-! ## Which tokens are refused -/

/-- Tokens that spell an expression either compile and divide by zero nowhere, or are refused at
their leftmost division by zero. -/
theorem lower_cases {tokens : List Token} {e : Expr} (h : Derives .sum tokens e) :
    ((∃ l, lower tokens = .ok l) ∧ ∀ i, ¬ ZeroDivisionAt tokens i) ∨
      ∃ i t, tokens[i]? = some t ∧ ZeroDivisionAt tokens i ∧
        (∀ j < i, ¬ ZeroDivisionAt tokens j) ∧
        lower tokens = .error (.divisionByZero t.offset) := by
  have hFirst : FirstZeroDivision tokens e.zeroDivision? := by
    simpa using firstZeroDivision_of_derives h .nil
  have hLower := lower_of_derives h
  cases hFound : e.zeroDivision? with
  | none =>
    rw [hFound] at hLower
    exact Or.inl ⟨⟨_, hLower⟩, hFirst.not_zeroDivisionAt hFound⟩
  | some offset =>
    rw [hFound] at hLower
    obtain ⟨i, t, hGet, rfl, hAt, hLeft⟩ := hFirst.exists_leftmost hFound
    exact Or.inr ⟨i, t, hGet, hAt, hLeft, hLower⟩

/-- **Division by zero on the tokens.** Tokens that spell an expression are refused if and only if
a division by zero stands among them, and then with the error anchored at the leftmost one. Tokens
that spell none are refused with the error of reading them. Among the tokens of a source, a number
reads as zero if and only if it is written with zeros alone. -/
theorem lower_eq_error_iff_zeroDivisionAt (tokens : List Token) :
    (∀ e, Expr.ofTokens tokens = .ok e →
      ((∃ err, lower tokens = .error err) ↔ ∃ i, ZeroDivisionAt tokens i) ∧
        ∀ i t, tokens[i]? = some t → ZeroDivisionAt tokens i →
          (∀ j < i, ¬ ZeroDivisionAt tokens j) →
            lower tokens = .error (.divisionByZero t.offset)) ∧
      (∀ err, Expr.ofTokens tokens = .error err →
        lower tokens = .error err ∧ err.stage = .parsing) ∧
      ∀ source, (Scan.ofSource source).tokens = tokens → ∀ t ∈ tokens, t.kind = .number →
        (Text.readsAsZero t.text = true ↔ ∀ c ∈ t.text.toList, c = '0') := by
  refine ⟨fun e hRead => ?_, fun err hRead => ?_, ?_⟩
  · rcases lower_cases (Expr.derives_of_ofTokens hRead) with
      ⟨⟨l, hLower⟩, hNone⟩ | ⟨i, t, hGet, hAt, hLeft, hLower⟩
    · refine ⟨⟨?_, fun ⟨i, hAt⟩ => (hNone i hAt).elim⟩, fun i t _ hAt => (hNone i hAt).elim⟩
      rintro ⟨err, hError⟩
      rw [hLower] at hError
      cases hError
    · refine ⟨⟨fun _ => ⟨i, hAt⟩, fun _ => ⟨_, hLower⟩⟩, ?_⟩
      intro j u hGetJ hAtJ hLeftJ
      -- Two leftmost places are one.
      have hLe : i ≤ j := Nat.le_of_not_lt fun hLt => hLeft j hLt hAtJ
      have hGe : j ≤ i := Nat.le_of_not_lt fun hLt => hLeftJ i hLt hAt
      have hSame : i = j := Nat.le_antisymm hLe hGe
      rw [← hSame, hGet] at hGetJ
      cases hGetJ
      exact hLower
  · exact ⟨lower_of_error hRead, Expr.stage_of_ofTokens hRead⟩
  · rintro source rfl t ht hKind
    exact Text.readsAsZero_iff_of_isNumeral (Scan.isNumeral_of_mem ht hKind)

/-- The tokens of `2+(1/((00)))/0`. -/
def quotients : List Token :=
  [⟨.number, "2", 0⟩, ⟨.operator, "+", 1⟩, ⟨.paren, "(", 2⟩, ⟨.number, "1", 3⟩,
    ⟨.operator, "/", 4⟩, ⟨.paren, "(", 5⟩, ⟨.paren, "(", 6⟩, ⟨.number, "00", 7⟩,
    ⟨.paren, ")", 9⟩, ⟨.paren, ")", 10⟩, ⟨.paren, ")", 11⟩, ⟨.operator, "/", 12⟩,
    ⟨.number, "0", 13⟩]

/-- Of two divisions by zero the left one is reported, also if its divisor is in parentheses. A
source that breaks off behind a division by zero is refused for breaking off. -/
theorem lower_eq_error_quotients :
    (Scan.ofSource "2+(1/((00)))/0").tokens = quotients ∧ ZeroDivisionAt quotients 11 ∧
      lower quotients = .error (.divisionByZero 4) ∧
      lower (Scan.ofSource "1/0+").tokens = .error (.unexpectedEnd 4) := by
  have hRead : Expr.ofTokens quotients = .ok (.binary .add (.leaf "2" 0) (.binary .div
      (.binary .div (.leaf "1" 3) (.leaf "00" 7) 4) (.leaf "0" 13) 12) 1) := by cbv
  have hEnd : Expr.ofTokens (Scan.ofSource "1/0+").tokens = .error (.unexpectedEnd 4) := by cbv
  have hLeft : ZeroDivisionAt quotients 4 :=
    ⟨⟨.operator, "/", 4⟩, rfl, rfl, [⟨.paren, "(", 5⟩, ⟨.paren, "(", 6⟩], ⟨.number, "00", 7⟩,
      [⟨.paren, ")", 9⟩, ⟨.paren, ")", 10⟩],
      [⟨.paren, ")", 11⟩, ⟨.operator, "/", 12⟩, ⟨.number, "0", 13⟩], rfl, by decide, by decide,
      rfl, rfl, by cbv⟩
  have hRight : ZeroDivisionAt quotients 11 :=
    ⟨⟨.operator, "/", 12⟩, rfl, rfl, [], ⟨.number, "0", 13⟩, [], [], rfl, by decide, by decide,
      rfl, rfl, by cbv⟩
  refine ⟨by cbv, hRight, ?_, ((lower_eq_error_iff_zeroDivisionAt _).2.1 _ hEnd).1⟩
  refine ((lower_eq_error_iff_zeroDivisionAt quotients).1 _ hRead).2 4 _ rfl hLeft ?_
  rintro j hj ⟨t, hGet, hSlash, -⟩
  obtain rfl | rfl | rfl | rfl : j = 0 ∨ j = 1 ∨ j = 2 ∨ j = 3 := by omega
  all_goals
    cases hGet
    cases hSlash

end ReversePolish
