import ReversePolish.Compilation
import ReversePolish.Rpn.Machine
import ReversePolish.Proofs.Parsing
import ReversePolish.Proofs.Scanning

/-!
# What compiling amounts to

The stages of `Compilation` in one statement each, so that results about compiled sources need not
look into the stages again.

* `Expr.Numeric`: every number of an expression is a numeral. What the tokens of a source spell is
  of that kind (`Expr.numeric_of_source`), so its pieces are nonempty and hold no space.
* `Expr.toRpn_eq`: the reverse Polish text of an expression, or its first division by zero.
* `lower_of_derives`, `lower_of_error`: what tokens compile to, whether they spell an expression or
  not.
* `compile_eq_map_lower`, `compile_eq_error`: a source compiles to what its tokens compile to.
* `compile_eq_ok`: a source compiles if and only if its tokens spell an expression without a
  division by zero. Outline and text are then those of the expression, the text being its pieces
  with a space between any two.
-/

namespace ReversePolish

/-! ## Numeric expressions -/

theorem Op.isNumeral_symbol (op : Op) : Text.isNumeral op.symbol = false := by
  cases op <;> decide

theorem Op.ofSymbol?_of_isNumeral {text : String} (h : Text.isNumeral text = true) :
    Op.ofSymbol? text = none := by
  cases hOp : Op.ofSymbol? text with
  | none => rfl
  | some op =>
    rw [Op.ofSymbol?_eq_some.1 hOp, Op.isNumeral_symbol op] at h
    cases h

namespace Expr

/-- Every number of the expression is a numeral. -/
def Numeric : Expr → Prop
  | .leaf text _ => Text.isNumeral text = true
  | .binary _ lhs rhs _ => lhs.Numeric ∧ rhs.Numeric

theorem Numeric.plain {e : Expr} (h : e.Numeric) : e.Plain := by
  induction e with
  | leaf text offset => exact Op.ofSymbol?_of_isNumeral h
  | binary op lhs rhs offset ihLhs ihRhs => exact ⟨ihLhs h.1, ihRhs h.2⟩

theorem numeric_of_derives {rank : Rank} {tokens : List Token} {e : Expr}
    (h : Derives rank tokens e)
    (hTokens : ∀ t ∈ tokens, t.kind = .number → Text.isNumeral t.text = true) : e.Numeric := by
  induction h with
  | sum _ _ _ _ ihLeft ihRight =>
    exact ⟨ihLeft fun t ht => hTokens t (by simp [ht]),
      ihRight fun t ht => hTokens t (by simp [ht])⟩
  | ofProduct _ ih => exact ih hTokens
  | product _ _ _ _ ihLeft ihRight =>
    exact ⟨ihLeft fun t ht => hTokens t (by simp [ht]),
      ihRight fun t ht => hTokens t (by simp [ht])⟩
  | ofFactor _ ih => exact ih hTokens
  | number hKind => exact hTokens _ List.mem_cons_self hKind
  | paren _ _ _ ih => exact ih fun t ht => hTokens t (by simp [ht])

/-- What the tokens of a source spell has numerals for its numbers. -/
theorem numeric_of_source {source : String} {e : Expr}
    (h : Derives .sum (Scan.ofSource source).tokens e) : e.Numeric :=
  numeric_of_derives h fun _ ht hKind => Scan.isNumeral_of_mem ht hKind

end Expr

/-! ## Pieces -/

namespace Rpn

/-- A numeral or an operator. -/
def IsPiece (piece : String) : Prop := Text.isNumeral piece = true ∨ ∃ op : Op, piece = op.symbol

theorem IsPiece.ne_empty {piece : String} (h : IsPiece piece) : piece ≠ "" := by
  rintro rfl
  rcases h with h | ⟨op, h⟩
  · cases h
  · exact absurd h (by cases op <;> decide)

theorem IsPiece.space_not_mem {piece : String} (h : IsPiece piece) : ' ' ∉ piece.toList := by
  intro hSpace
  rcases h with h | ⟨op, rfl⟩
  · exact absurd ((Text.isNumeral_iff.1 h).2 ' ' hSpace) (by decide)
  · cases op <;> exact absurd hSpace (by decide)

theorem foldl_emit_of_ne_empty {out : String} (hOut : out ≠ "") (pieces : List String) :
    pieces.foldl emit out = " ".intercalate (out :: pieces) := by
  induction pieces generalizing out with
  | nil => simp
  | cons piece pieces ih =>
    have hEmit : emit out piece = out ++ " " ++ piece := by simp [emit, hOut]
    have hNext : out ++ " " ++ piece ≠ "" := by simp [hOut]
    rw [List.foldl_cons, hEmit, ih hNext, String.intercalate_cons_append,
      String.intercalate_cons_cons]

/-- Emitting nonempty pieces one after the other puts a space between any two. -/
theorem foldl_emit {pieces : List String} (h : ∀ piece ∈ pieces, piece ≠ "") :
    pieces.foldl emit "" = " ".intercalate pieces := by
  cases pieces with
  | nil => simp
  | cons piece pieces =>
    have hEmit : emit "" piece = piece := rfl
    rw [List.foldl_cons, hEmit, foldl_emit_of_ne_empty (h piece List.mem_cons_self)]

end Rpn

namespace Expr

theorem pieces_ne_nil (e : Expr) : e.pieces ≠ [] := by
  cases e <;> simp [pieces]

theorem Numeric.isPiece {e : Expr} (h : e.Numeric) : ∀ piece ∈ e.pieces, Rpn.IsPiece piece := by
  induction e with
  | leaf text offset =>
    intro piece hPiece
    rw [List.mem_singleton.1 hPiece]
    exact Or.inl h
  | binary op lhs rhs offset ihLhs ihRhs =>
    intro piece hPiece
    simp only [pieces, List.mem_append, List.mem_singleton] at hPiece
    rcases hPiece with (hPiece | hPiece) | rfl
    · exact ihLhs h.1 piece hPiece
    · exact ihRhs h.2 piece hPiece
    · exact Or.inr ⟨op, rfl⟩

theorem Numeric.foldl_emit {e : Expr} (h : e.Numeric) :
    e.pieces.foldl Rpn.emit "" = " ".intercalate e.pieces :=
  Rpn.foldl_emit fun piece hPiece => (h.isPiece piece hPiece).ne_empty

/-- Splitting the text of an expression at its spaces gives the pieces it was put together from. -/
theorem Numeric.split_intercalate {e : Expr} (h : e.Numeric) :
    Rpn.split (" ".intercalate e.pieces) = e.pieces :=
  Rpn.split_intercalate e.pieces_ne_nil fun piece hPiece => (h.isPiece piece hPiece).space_not_mem

end Expr

/-! ## The stages after scanning -/

theorem Expr.toRpn_eq (e : Expr) :
    e.toRpn =
      match e.zeroDivision? with
      | some offset => .error (.divisionByZero offset)
      | none => .ok (e.pieces.foldl Rpn.emit "") := by
  rw [Expr.toRpn, Rpn.write_visit]
  cases e.zeroDivision? with
  | none => simp [Rpn.write]
  | some offset => rfl

theorem lower_of_error {tokens : List Token} {err : Error}
    (h : Expr.ofTokens tokens = .error err) : lower tokens = .error err := by
  rw [lower, h]
  rfl

theorem lower_of_derives {tokens : List Token} {e : Expr} (h : Derives .sum tokens e) :
    lower tokens =
      match e.zeroDivision? with
      | some offset => .error (.divisionByZero offset)
      | none => .ok ⟨Outline.ofExpr e, e.pieces.foldl Rpn.emit ""⟩ := by
  rw [lower, Expr.ofTokens_of_derives h]
  simp only [bind, Except.bind, Expr.toRpn_eq]
  cases e.zeroDivision? with
  | none => rfl
  | some offset => rfl

theorem lower_eq_ok {tokens : List Token} {l : Lowered} :
    lower tokens = .ok l ↔
      ∃ e, Derives .sum tokens e ∧ e.zeroDivision? = none ∧
        l = ⟨Outline.ofExpr e, e.pieces.foldl Rpn.emit ""⟩ := by
  constructor
  · intro h
    obtain ⟨e, hTokens, -⟩ := bind_eq_ok.1 h
    have hDerives := Expr.derives_of_ofTokens hTokens
    rw [lower_of_derives hDerives] at h
    cases hZero : e.zeroDivision? with
    | none =>
      rw [hZero] at h
      exact ⟨e, hDerives, hZero, (Except.ok.inj h).symm⟩
    | some offset =>
      rw [hZero] at h
      cases h
  · rintro ⟨e, hDerives, hZero, rfl⟩
    rw [lower_of_derives hDerives, hZero]

/-! ## Compiling a source -/

theorem compile_eq_map_lower (source : String) :
    compile source = (lower (Scan.ofSource source).tokens).map fun l =>
      ⟨(Scan.ofSource source).tokens, (Scan.ofSource source).warnings, l.tree, l.rpn⟩ := by
  dsimp only [compile]
  cases lower (Scan.ofSource source).tokens with
  | error err => rfl
  | ok l => rfl

/-- A source is refused if and only if its tokens are, with the same error. -/
theorem compile_eq_error {source : String} {err : Error} :
    compile source = .error err ↔ lower (Scan.ofSource source).tokens = .error err := by
  rw [compile_eq_map_lower]
  cases lower (Scan.ofSource source).tokens with
  | error err' => simp [Except.map]
  | ok l => simp [Except.map]

theorem compile_eq_ok {source : String} {c : Compilation} :
    compile source = .ok c ↔
      ∃ e, Derives .sum (Scan.ofSource source).tokens e ∧ e.zeroDivision? = none ∧
        c = ⟨(Scan.ofSource source).tokens, (Scan.ofSource source).warnings, Outline.ofExpr e,
          " ".intercalate e.pieces⟩ := by
  constructor
  · intro h
    obtain ⟨l, hLower, h⟩ := bind_eq_ok.1 h
    obtain ⟨e, hDerives, hZero, rfl⟩ := lower_eq_ok.1 hLower
    rw [(Expr.numeric_of_source hDerives).foldl_emit] at h
    exact ⟨e, hDerives, hZero, (Except.ok.inj h).symm⟩
  · rintro ⟨e, hDerives, hZero, rfl⟩
    rw [← (Expr.numeric_of_source hDerives).foldl_emit]
    exact bind_eq_ok.2 ⟨_, lower_eq_ok.2 ⟨e, hDerives, hZero, rfl⟩, rfl⟩

end ReversePolish
