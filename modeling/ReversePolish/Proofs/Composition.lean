import Mathlib
import ReversePolish.Proofs.Joining
import ReversePolish.Proofs.Writing

/-!
# Sources put together from sources

Two sources in parentheses with an operator between them make up a source again. What it compiles
to is put together from what the two compile to, and nothing in the one can reach into the other.

* `joined`: the source.
* `Scan.ofChars_parens`: the scan of a text in parentheses is that of the text, further on.
* `derives_joined`: what the tokens spell is the operator over what the tokens of the two spell.
* `compile_joined`: the compilation, or the one division by zero that can arise.
-/

namespace ReversePolish

/-- Two sources in parentheses, with an operator between them. -/
def joined (op : Op) (a b : String) : String := "(" ++ a ++ ")" ++ op.symbol ++ "(" ++ b ++ ")"

/-- A label without children that is made of zeros alone. -/
def Outline.IsZero (t : Outline) : Prop := t.children = [] ∧ ∀ c ∈ t.label.toList, c = '0'

/-! ## The scan -/

namespace Scan

theorem ofChars_parens (offset : Nat) (text rest : List Char) :
    ofChars offset ('(' :: (text ++ ')' :: rest)) =
      cons offset (.token .paren ['(']) ((ofChars 0 text).shift (offset + 1) ++
        cons (offset + String.utf8Len text + 1) (.token .paren [')'])
          (ofChars (offset + String.utf8Len text + 2) rest)) := by
  have hSeparate : Separate text (')' :: rest) := by
    apply separate_of_head
    rintro d ⟨⟩
    rfl
  have hOpen : (Lexeme.first '(' []).1 = .token .paren ['('] := rfl
  have hClose : (Lexeme.first ')' []).1 = .token .paren [')'] := rfl
  have hOpenBytes : '('.utf8Size = 1 := rfl
  have hCloseBytes : ')'.utf8Size = 1 := rfl
  rw [ofChars_cons (by rfl), ofChars_append hSeparate, ofChars_cons (by rfl), hOpen, hClose,
    hOpenBytes, hCloseBytes, ← ofChars_add, Nat.zero_add, Nat.add_right_comm]

theorem ofChars_symbol (op : Op) (offset : Nat) (rest : List Char) :
    ofChars offset (op.symbol.toList ++ rest) =
      cons offset (.token .operator op.symbol.toList) (ofChars (offset + 1) rest) := by
  cases op <;> exact ofChars_cons rfl offset rest

/-- The tokens and the warnings of the two sources, further on, with six tokens around them. -/
theorem ofSource_joined (op : Op) (a b : String) :
    ofSource (joined op a b) =
      ⟨⟨.paren, "(", 0⟩ :: ((ofSource a).tokens.map (Token.shift 1) ++
          [⟨.paren, ")", a.utf8ByteSize + 1⟩]) ++
        ⟨.operator, op.symbol, a.utf8ByteSize + 2⟩ ::
          (⟨.paren, "(", a.utf8ByteSize + 3⟩ ::
            ((ofSource b).tokens.map (Token.shift (a.utf8ByteSize + 4)) ++
              [⟨.paren, ")", a.utf8ByteSize + b.utf8ByteSize + 4⟩])),
        (ofSource a).warnings.map (Warning.shift 1) ++
          (ofSource b).warnings.map (Warning.shift (a.utf8ByteSize + 4))⟩ := by
  have hText : (joined op a b).toList = '(' :: (a.toList ++ ')' :: (op.symbol.toList ++
      '(' :: (b.toList ++ ')' :: []))) := by
    simp [joined]
  have hEnd : a.utf8ByteSize + 2 + 1 + b.utf8ByteSize = a.utf8ByteSize + b.utf8ByteSize + 3 := by
    omega
  rw [ofSource, hText, ofChars_parens, ofChars_symbol, ofChars_parens]
  simp [ofSource, cons, shift, tokens_append, warnings_append, ofChars,
    String.utf8Len_toList, hEnd]

end Scan

/-! ## The expression -/

theorem Derives.exists_parens {tokens : List Token} {e : Expr} (h : Derives .sum tokens e)
    (bytes opening closing : Nat) (rank : Rank) :
    ∃ e', Derives rank (⟨.paren, "(", opening⟩ ::
        (tokens.map (Token.shift bytes) ++ [⟨.paren, ")", closing⟩])) e' ∧
      e'.unplaced = e.unplaced := by
  have hSame : (tokens.map (Token.shift bytes)).map Token.unplaced = tokens.map Token.unplaced := by
    rw [List.map_map]
    rfl
  obtain ⟨e', hDerives, hExpr⟩ := derives_of_map_unplaced h hSame
  have hParens : Derives .factor
      (⟨.paren, "(", opening⟩ :: (tokens.map (Token.shift bytes) ++ [⟨.paren, ")", closing⟩])) e' :=
    .paren rfl hDerives rfl
  exact ⟨e', hParens.of_factor rank, hExpr⟩

theorem derives_joined {a b : String} {l r : Expr} (hLeft : Derives .sum (Scan.ofSource a).tokens l)
    (hRight : Derives .sum (Scan.ofSource b).tokens r) (op : Op) :
    ∃ l' r', Derives .sum (Scan.ofSource (joined op a b)).tokens
        (.binary op l' r' (a.utf8ByteSize + 2)) ∧
      l'.unplaced = l.unplaced ∧ r'.unplaced = r.unplaced := by
  obtain ⟨l', hDerivesL, hL⟩ := hLeft.exists_parens 1 0 (a.utf8ByteSize + 1) op.rank
  obtain ⟨r', hDerivesR, hR⟩ :=
    hRight.exists_parens (a.utf8ByteSize + 4) (a.utf8ByteSize + 3)
      (a.utf8ByteSize + b.utf8ByteSize + 4) op.rank.operand
  have hSymbol :
      (⟨.operator, op.symbol, a.utf8ByteSize + 2⟩ : Token).isOperator op.symbol = true := by
    simp [Token.isOperator]
  have hWhole : Derives Place.alone.rank _ _ :=
    (hDerivesL.operator rfl hSymbol hDerivesR).of_not_needs rfl
  rw [Scan.ofSource_joined]
  exact ⟨l', r', hWhole, hL, hR⟩

theorem Expr.Numeric.isZero_iff {e : Expr} (h : e.Numeric) :
    e.isZero = true ↔ (Outline.ofExpr e).IsZero := by
  cases e with
  | leaf text offset =>
    rw [Outline.ofExpr_leaf]
    simp [Expr.isZero, Outline.IsZero, Text.readsAsZero_iff_of_isNumeral h]
  | binary op lhs rhs offset =>
    rw [Outline.ofExpr_binary]
    simp [Expr.isZero, Outline.IsZero]

/-! ## The compilation -/

/-- **Compiling part by part.** Two sources that compile can be joined by any operator. What comes
out is joined as well, unless a zero would divide: then the division sign between the two is at
fault. -/
theorem compile_joined {a b : String} {ca cb : Compilation} (ha : compile a = .ok ca)
    (hb : compile b = .ok cb) (op : Op) :
    (op = .div ∧ cb.tree.IsZero →
        compile (joined op a b) = .error (.divisionByZero (a.utf8ByteSize + 2))) ∧
      (¬ (op = .div ∧ cb.tree.IsZero) →
        ∃ c, compile (joined op a b) = .ok c ∧ c.tree = ⟨op.symbol, [ca.tree, cb.tree]⟩ ∧
          c.rpn = ca.rpn ++ " " ++ cb.rpn ++ " " ++ op.symbol ∧
          c.warnings = ca.warnings.map (Warning.shift 1) ++
            cb.warnings.map (Warning.shift (a.utf8ByteSize + 4))) := by
  obtain ⟨l, hLeft, hZeroL, rfl⟩ := compile_eq_ok.1 ha
  obtain ⟨r, hRight, hZeroR, rfl⟩ := compile_eq_ok.1 hb
  obtain ⟨l', r', hDerives, hL, hR⟩ := derives_joined hLeft hRight op
  have hIsZero : r'.isZero = true ↔ (Outline.ofExpr r).IsZero := by
    rw [Expr.isZero_of_unplaced_eq hR, (Expr.numeric_of_source hRight).isZero_iff]
  have hZeroL' := (Expr.zeroDivision?_of_unplaced_eq hL).2 hZeroL
  have hZeroR' := (Expr.zeroDivision?_of_unplaced_eq hR).2 hZeroR
  refine ⟨fun hDivides => ?_, fun hDivides => ?_⟩
  · have hFound : (Expr.binary op l' r' (a.utf8ByteSize + 2)).zeroDivision? =
        some (a.utf8ByteSize + 2) := by
      simp [Expr.zeroDivision?, hZeroL', hZeroR', hDivides.1, hIsZero.2 hDivides.2]
    rw [compile_eq_error, lower_of_derives hDerives, hFound]
  · have hNone : (Expr.binary op l' r' (a.utf8ByteSize + 2)).zeroDivision? = none := by
      refine Expr.zeroDivision?_binary_eq_none.2 ⟨hZeroL', hZeroR', fun hZero => hDivides ?_⟩
      exact ⟨hZero.1, hIsZero.1 hZero.2⟩
    refine ⟨_, compile_eq_ok.2 ⟨_, hDerives, hNone, rfl⟩, ?_, ?_, ?_⟩
    · rw [Outline.ofExpr_binary, Outline.ofExpr_eq_iff.2 hL, Outline.ofExpr_eq_iff.2 hR]
    · rw [Expr.pieces, Expr.pieces_of_unplaced_eq hL, Expr.pieces_of_unplaced_eq hR,
        String.intercalate_append_of_ne_nil (by simp [l.pieces_ne_nil]) (by simp),
        String.intercalate_append_of_ne_nil l.pieces_ne_nil r.pieces_ne_nil,
        String.intercalate_singleton]
    · rw [Scan.ofSource_joined]

/-- A difference and a number, both with stray characters, and a quotient whose divisor is a zero in
parentheses. -/
theorem compile_joined_strays :
    (∃ c, compile "(8é-3)*(2 $)" = .ok c ∧ c.rpn = "8 3 - 2 *" ∧
        c.warnings = [⟨'é', 2⟩, ⟨'$', 11⟩]) ∧
      compile "(8é-3)/((00) $)" = .error (.divisionByZero 7) := by
  have hLeft : Expr.ofTokens (Scan.ofSource "8é-3").tokens =
      .ok (.binary .sub (.leaf "8" 0) (.leaf "3" 4) 3) := by cbv
  have hTwo : Expr.ofTokens (Scan.ofSource "2 $").tokens = .ok (.leaf "2" 0) := by cbv
  have hZero : Expr.ofTokens (Scan.ofSource "(00) $").tokens = .ok (.leaf "00" 1) := by cbv
  have ha := compile_eq_ok.2 ⟨_, Expr.derives_of_ofTokens hLeft, rfl, rfl⟩
  have hb := compile_eq_ok.2 ⟨_, Expr.derives_of_ofTokens hTwo, rfl, rfl⟩
  have hb' := compile_eq_ok.2 ⟨_, Expr.derives_of_ofTokens hZero, rfl, rfl⟩
  constructor
  · obtain ⟨c, hc, -, hRpn, hWarnings⟩ := (compile_joined ha hb .mul).2 (by simp)
    refine ⟨c, hc, hRpn, hWarnings.trans ?_⟩
    cbv
  · have hLeaf : (Outline.ofExpr (.leaf "00" 1)).IsZero := by
      rw [Outline.ofExpr_leaf]
      exact ⟨rfl, by simp⟩
    exact (compile_joined ha hb' .div).1 ⟨rfl, hLeaf⟩

end ReversePolish
