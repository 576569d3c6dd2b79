import Mathlib.Data.List.Chain
import ReversePolish.Proofs.Writing

/-!
# Reverse Polish words

Which texts are the reverse Polish form of some source, and how the outline is read back from one.

* `Rpn.IsWord`: the pieces are numerals and operators, counting operands ends at one, and no zero
  stands before a division sign.
* `Rpn.rebuild?`: the outline that the stack machine puts together from a text.
* `Expr.Numeric.depth?_pieces`, `Expr.Numeric.isChain_pieces_iff`: the pieces of an expression count
  as one operand, and they are free of zero divisors if and only if the expression is.
* `Rpn.IsWord.exists_expr`: a word is put together from the pieces of an expression.
* `Expr.compile_written`: every expression that divides by zero nowhere has a source, its text with
  all needed parentheses.
* `isWord_iff_exists_compile`: the words are exactly the compiled texts, each one gives back the
  outline of its source, and so two sources have the same text if and only if they have the same
  outline.
-/

namespace ReversePolish

namespace Rpn

/-! ## Words -/

/-- The number of operands on the stack after the pieces, `none` if an operator lacks one. -/
def depth? : List String → Nat → Option Nat
  | [], depth => some depth
  | piece :: pieces, depth =>
    match Op.ofSymbol? piece with
    | none => depth? pieces (depth + 1)
    | some _ => if 2 ≤ depth then depth? pieces (depth - 1) else none

/-- A numeral written with zeros alone. -/
def isZeroNumeral (piece : String) : Bool :=
  Text.isNumeral piece && piece.toList.all (· == '0')

/-- A text of numerals and operators set apart by single spaces, in which every operator finds two
operands, one operand is left at the end, and no zero stands right before a division sign. -/
structure IsWord (text : String) : Prop where
  isPiece : ∀ piece ∈ split text, IsPiece piece
  depth : depth? (split text) 0 = some 1
  divisor : (split text).IsChain fun left right => ¬ (isZeroNumeral left = true ∧ right = "/")

instance (piece : String) : Decidable (IsPiece piece) :=
  decidable_of_iff (Text.isNumeral piece = true ∨ (Op.ofSymbol? piece).isSome = true) <| by
    rw [IsPiece, Option.isSome_iff_exists]
    simp only [Op.ofSymbol?_eq_some]

instance (text : String) : Decidable (IsWord text) :=
  decidable_of_iff
    ((∀ piece ∈ split text, IsPiece piece) ∧ depth? (split text) 0 = some 1 ∧
      (split text).IsChain fun left right => ¬ (isZeroNumeral left = true ∧ right = "/"))
    ⟨fun ⟨hPiece, hDepth, hDivisor⟩ => ⟨hPiece, hDepth, hDivisor⟩,
      fun h => ⟨h.isPiece, h.depth, h.divisor⟩⟩

end Rpn

/-- Numbers and operators as outlines: an operator puts its label over its two operands. -/
def Outline.building : Arithmetic Outline where
  number text := ⟨text, []⟩
  apply op lhs rhs := some ⟨op.symbol, [lhs, rhs]⟩

/-- The outline that is left alone on the stack after the pieces of the text. -/
def Rpn.rebuild? (text : String) : Option Outline :=
  match run Outline.building (split text) [] with
  | .ok [outline] => some outline
  | _ => none

theorem Expr.eval_building (e : Expr) : e.eval Outline.building = some (Outline.ofExpr e) := by
  induction e with
  | leaf text offset => rw [Outline.ofExpr_leaf]; rfl
  | binary op lhs rhs offset ihLhs ihRhs =>
    rw [Expr.eval, ihLhs, ihRhs, Outline.ofExpr_binary]
    rfl

theorem Rpn.rebuild?_pieces {e : Expr} (h : e.Numeric) :
    rebuild? (" ".intercalate e.pieces) = some (Outline.ofExpr e) := by
  have hRun := run_pieces Outline.building h.plain [] []
  rw [List.append_nil, Expr.eval_building] at hRun
  rw [rebuild?, h.split_intercalate, hRun]
  rfl

/-! ## The pieces of an expression are a word -/

namespace Expr

theorem Numeric.depth?_pieces {e : Expr} (h : e.Numeric) (rest : List String) (depth : Nat) :
    Rpn.depth? (e.pieces ++ rest) depth = Rpn.depth? rest (depth + 1) := by
  induction e generalizing rest depth with
  | leaf text offset => simp [pieces, Rpn.depth?, Op.ofSymbol?_of_isNumeral h]
  | binary op lhs rhs offset ihLhs ihRhs =>
    simp [pieces, ihLhs h.1, ihRhs h.2, Rpn.depth?, Op.ofSymbol?_symbol]

theorem Numeric.isNumeral_head? {e : Expr} (h : e.Numeric) :
    ∀ piece ∈ e.pieces.head?, Text.isNumeral piece = true := by
  induction e with
  | leaf text offset =>
    intro piece hPiece
    cases hPiece
    exact h
  | binary op lhs rhs offset ihLhs ihRhs =>
    intro piece hPiece
    rw [pieces, List.append_assoc, List.head?_append_of_ne_nil _ lhs.pieces_ne_nil] at hPiece
    exact ihLhs h.1 piece hPiece

theorem Numeric.isZeroNumeral_getLast? {e : Expr} (h : e.Numeric) :
    ∃ piece, e.pieces.getLast? = some piece ∧
      (Rpn.isZeroNumeral piece = true ↔ e.isZero = true) := by
  cases e with
  | leaf text offset =>
    have hNumeral : Text.isNumeral text = true := h
    refine ⟨text, rfl, ?_⟩
    simp [Rpn.isZeroNumeral, isZero, hNumeral, Text.readsAsZero_iff_of_isNumeral hNumeral]
  | binary op lhs rhs offset =>
    refine ⟨op.symbol, by simp [pieces], ?_⟩
    simp [Rpn.isZeroNumeral, isZero, Op.isNumeral_symbol]

/-- A zero right before a division sign is the right operand of a division. -/
theorem Numeric.isChain_pieces_iff {e : Expr} (h : e.Numeric) :
    (e.pieces.IsChain fun left right => ¬ (Rpn.isZeroNumeral left = true ∧ right = "/")) ↔
      e.zeroDivision? = none := by
  induction e with
  | leaf text offset => simp [pieces, zeroDivision?]
  | binary op lhs rhs offset ihLhs ihRhs =>
    obtain ⟨last, hLast, hZero⟩ := h.2.isZeroNumeral_getLast?
    have hSlash : op.symbol = "/" ↔ op = .div := Op.symbol_inj (b := .div)
    -- Between the operands no division sign follows, because the right one starts with a number.
    have hBetween : ∀ left ∈ lhs.pieces.getLast?, ∀ right ∈ rhs.pieces.head?,
        ¬ (Rpn.isZeroNumeral left = true ∧ right = "/") := by
      rintro left - right hRight ⟨-, rfl⟩
      exact absurd (h.2.isNumeral_head? "/" hRight) (by decide)
    have hEnd : (lhs.pieces ++ rhs.pieces).getLast? = some last := by
      rw [List.getLast?_append_of_ne_nil _ rhs.pieces_ne_nil, hLast]
    rw [pieces, List.isChain_append, List.isChain_append, ihLhs h.1, ihRhs h.2, hEnd,
      zeroDivision?_binary_eq_none]
    constructor
    · rintro ⟨⟨hLhs, hRhs, -⟩, -, hLastPair⟩
      refine ⟨hLhs, hRhs, ?_⟩
      rintro ⟨hDiv, hIsZero⟩
      exact hLastPair last rfl op.symbol rfl ⟨hZero.2 hIsZero, hSlash.2 hDiv⟩
    · rintro ⟨hLhs, hRhs, hNot⟩
      refine ⟨⟨hLhs, hRhs, hBetween⟩, List.isChain_singleton _, ?_⟩
      rintro left hLeft right hRight ⟨hLeftZero, hRightSlash⟩
      cases hLeft
      cases hRight
      exact hNot ⟨hSlash.1 hRightSlash, hZero.1 hLeftZero⟩

theorem Numeric.isWord {e : Expr} (h : e.Numeric) (hZero : e.zeroDivision? = none) :
    Rpn.IsWord (" ".intercalate e.pieces) := by
  have hSplit := h.split_intercalate
  refine ⟨?_, ?_, ?_⟩
  · rw [hSplit]
    exact h.isPiece
  · rw [hSplit]
    simpa [Rpn.depth?] using h.depth?_pieces [] 0
  · rw [hSplit]
    exact h.isChain_pieces_iff.2 hZero

end Expr

/-! ## Every word is the pieces of an expression -/

namespace Rpn

/-- Counting the operands of pieces is putting expressions on a stack: the pieces of the stack, the
oldest expression first, are what was taken so far. -/
theorem exists_stack_of_depth? {pieces : List String} (hPieces : ∀ piece ∈ pieces, IsPiece piece)
    (stack : List Expr) (hStack : ∀ e ∈ stack, e.Numeric) {depth : Nat}
    (hDepth : depth? pieces stack.length = some depth) :
    ∃ final : List Expr, final.length = depth ∧ (∀ e ∈ final, e.Numeric) ∧
      final.reverse.flatMap Expr.pieces = stack.reverse.flatMap Expr.pieces ++ pieces := by
  induction pieces generalizing stack with
  | nil => exact ⟨stack, Option.some.inj hDepth, hStack, by simp⟩
  | cons piece pieces ih =>
    obtain ⟨hPiece, hPieces⟩ := List.forall_mem_cons.1 hPieces
    cases hOp : Op.ofSymbol? piece with
    | none =>
      have hNumeral : Text.isNumeral piece = true := by
        rcases hPiece with hNumeral | ⟨op, rfl⟩
        · exact hNumeral
        · rw [Op.ofSymbol?_symbol] at hOp
          cases hOp
      simp only [depth?, hOp] at hDepth
      obtain ⟨final, hLength, hNumeric, hFinal⟩ := ih hPieces (.leaf piece 0 :: stack)
        (List.forall_mem_cons.2 ⟨hNumeral, hStack⟩) hDepth
      exact ⟨final, hLength, hNumeric, by simpa [Expr.pieces] using hFinal⟩
    | some op =>
      simp only [depth?, hOp] at hDepth
      -- The operator needs two operands, so that the stack holds two expressions to join.
      obtain ⟨rhs, lhs, below, rfl⟩ : ∃ rhs lhs below, stack = rhs :: lhs :: below := by
        rcases stack with _ | ⟨rhs, _ | ⟨lhs, below⟩⟩
        · cases hDepth
        · cases hDepth
        · exact ⟨rhs, lhs, below, rfl⟩
      obtain ⟨hRhs, hBelow⟩ := List.forall_mem_cons.1 hStack
      obtain ⟨hLhs, hBelow⟩ := List.forall_mem_cons.1 hBelow
      obtain ⟨final, hLength, hNumeric, hFinal⟩ := ih hPieces (.binary op lhs rhs 0 :: below)
        (List.forall_mem_cons.2 ⟨⟨hLhs, hRhs⟩, hBelow⟩) hDepth
      refine ⟨final, hLength, hNumeric, ?_⟩
      simpa [Expr.pieces, Op.ofSymbol?_eq_some.1 hOp] using hFinal

/-- A word is put together from the pieces of an expression that divides by zero nowhere. -/
theorem IsWord.exists_expr {text : String} (h : IsWord text) :
    ∃ e : Expr, e.Numeric ∧ e.zeroDivision? = none ∧ text = " ".intercalate e.pieces := by
  obtain ⟨final, hLength, hNumeric, hFinal⟩ :=
    exists_stack_of_depth? h.isPiece [] (by simp) h.depth
  obtain ⟨e, rfl⟩ := List.length_eq_one_iff.1 hLength
  have hPieces : e.pieces = split text := by simpa using hFinal
  have he : e.Numeric := hNumeric e List.mem_cons_self
  refine ⟨e, he, he.isChain_pieces_iff.1 ?_, ?_⟩
  · rw [hPieces]
    exact h.divisor
  · rw [hPieces, intercalate_split]

end Rpn

/-! ## Compiled texts -/

theorem Expr.compile_written {brackets : Place → Op → Bool}
    (hBrackets : ∀ place op, place.needs op = true → brackets place op = true) {e : Expr}
    (h : e.Numeric) (hZero : e.zeroDivision? = none) :
    ∃ c, compile (String.ofList ((e.written brackets .alone).flatMap Lexeme.chars)) = .ok c ∧
      c.tree = Outline.ofExpr e ∧ c.rpn = " ".intercalate e.pieces := by
  obtain ⟨-, a, hTokens, hSame⟩ := readsBack_flatMap_chars hBrackets h
  have hZero' := (zeroDivision?_of_unplaced_eq hSame).2 hZero
  refine ⟨_, compile_eq_ok.2 ⟨a, derives_of_ofTokens hTokens, hZero', rfl⟩,
    Outline.ofExpr_eq_iff.2 hSame, ?_⟩
  rw [pieces_of_unplaced_eq hSame]

/-- **Words and compiled texts.** The reverse Polish words are exactly the texts that sources
compile to. The outline of a source is rebuilt from its text, and two sources have the same text if
and only if they have the same outline. -/
theorem isWord_iff_exists_compile :
    (∀ text, Rpn.IsWord text ↔ ∃ source c, compile source = .ok c ∧ c.rpn = text) ∧
      (∀ source c, compile source = .ok c → Rpn.rebuild? c.rpn = some c.tree) ∧
      ∀ source source' c c', compile source = .ok c → compile source' = .ok c' →
        (c.rpn = c'.rpn ↔ c.tree = c'.tree) := by
  have hRebuild : ∀ source c, compile source = .ok c → Rpn.rebuild? c.rpn = some c.tree := by
    intro source c h
    obtain ⟨e, hDerives, -, rfl⟩ := compile_eq_ok.1 h
    exact Rpn.rebuild?_pieces (Expr.numeric_of_source hDerives)
  refine ⟨fun text => ⟨fun h => ?_, ?_⟩, hRebuild, ?_⟩
  · obtain ⟨e, hNumeric, hZero, rfl⟩ := h.exists_expr
    have hAlways : ∀ place op, Place.needs place op = true → Place.always place op = true :=
      fun _ _ _ => rfl
    obtain ⟨c, hCompile, -, hRpn⟩ := Expr.compile_written hAlways hNumeric hZero
    exact ⟨_, c, hCompile, hRpn⟩
  · rintro ⟨source, c, h, rfl⟩
    obtain ⟨e, hDerives, hZero, rfl⟩ := compile_eq_ok.1 h
    exact (Expr.numeric_of_source hDerives).isWord hZero
  · intro source source' c c' h h'
    constructor
    · intro hRpn
      have hTree := hRebuild source c h
      rw [hRpn, hRebuild source' c' h'] at hTree
      exact (Option.some.inj hTree).symm
    · intro hTree
      obtain ⟨e, -, -, rfl⟩ := compile_eq_ok.1 h
      obtain ⟨e', -, -, rfl⟩ := compile_eq_ok.1 h'
      have hPieces : e.pieces = e'.pieces := by
        rw [← e.pieces_unplaced, Outline.ofExpr_eq_iff.1 hTree, e'.pieces_unplaced]
      rw [hPieces]

example : Rpn.IsWord "1 2 2 - /" := by decide

example : ¬ Rpn.IsWord "1 00 /" := by decide

example : ¬ Rpn.IsWord "1  2 +" := by decide

/-- A word with redundant zeros that divides by a difference, what its source compiles to, and a
text with a zero divisor, which no source compiles to. -/
theorem isWord_iff_exists_compile_quotient :
    (∃ source c, compile source = .ok c ∧ c.rpn = "1 007 7 - /" ∧
      Rpn.rebuild? "1 007 7 - /" = some c.tree) ∧
      ¬ ∃ source c, compile source = .ok c ∧ c.rpn = "1 007 - 00 /" := by
  obtain ⟨hWord, hRebuild, -⟩ := isWord_iff_exists_compile
  constructor
  · obtain ⟨source, c, hCompile, hRpn⟩ := (hWord "1 007 7 - /").1 (by decide)
    exact ⟨source, c, hCompile, hRpn, hRpn ▸ hRebuild source c hCompile⟩
  · intro hSource
    exact absurd ((hWord "1 007 - 00 /").2 hSource) (by decide)

end ReversePolish
