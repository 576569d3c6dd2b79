import ReversePolish.Proofs.Compiling
import ReversePolish.Proofs.Counter

/-!
# Tokens and expressions without their offsets

Offsets say where tokens stand and are carried along, but nothing is decided by them.

* `Token.unplaced`, `Expr.unplaced`: a token or an expression with all offsets set to zero.
* `derives_of_map_unplaced`: tokens that differ only in their offsets spell expressions that differ
  only in theirs.
* `Expr.pieces_unplaced`, `Expr.zeroDivision?_unplaced`: the pieces of an expression, and whether it
  divides by zero, do not depend on offsets.
* `Outline.ofExpr_eq_iff`: two expressions have the same outline if and only if they differ at most
  in offsets.
* `Counter.run_move`: an error moves along with the tokens.
-/

namespace ReversePolish

/-- The token at offset zero. -/
def Token.unplaced (t : Token) : Token := { t with offset := 0 }

namespace Token

theorem unplaced_eq_iff {t u : Token} :
    t.unplaced = u.unplaced ↔ t.kind = u.kind ∧ t.text = u.text := by
  simp [unplaced]

theorem isOperator_of_unplaced_eq {t u : Token} (h : t.unplaced = u.unplaced) (symbol : String) :
    t.isOperator symbol = u.isOperator symbol := by
  obtain ⟨hKind, hText⟩ := unplaced_eq_iff.1 h
  rw [isOperator, isOperator, hKind, hText]

theorem isParen_of_unplaced_eq {t u : Token} (h : t.unplaced = u.unplaced) (symbol : String) :
    t.isParen symbol = u.isParen symbol := by
  obtain ⟨hKind, hText⟩ := unplaced_eq_iff.1 h
  rw [isParen, isParen, hKind, hText]

/-- Tokens that differ only in offsets can be cut at the same places. -/
theorem exists_cut_of_map_unplaced {tokens l r : List Token} {t : Token}
    (h : tokens.map unplaced = (l ++ t :: r).map unplaced) :
    ∃ l' t' r', tokens = l' ++ t' :: r' ∧ l'.map unplaced = l.map unplaced ∧
      t'.unplaced = t.unplaced ∧ r'.map unplaced = r.map unplaced := by
  rw [List.map_append, List.map_cons, List.map_eq_append_iff] at h
  obtain ⟨l', tail, rfl, hLeft, hTail⟩ := h
  obtain ⟨t', r', rfl, hToken, hRight⟩ := List.map_eq_cons_iff.1 hTail
  exact ⟨l', t', r', rfl, hLeft, hToken, hRight⟩

end Token

/-- The expression with all offsets zero. -/
def Expr.unplaced : Expr → Expr
  | .leaf text _ => .leaf text 0
  | .binary op lhs rhs _ => .binary op lhs.unplaced rhs.unplaced 0

theorem Expr.unplaced_unplaced (e : Expr) : e.unplaced.unplaced = e.unplaced := by
  induction e with
  | leaf text offset => rfl
  | binary op lhs rhs offset ihLhs ihRhs =>
    rw [Expr.unplaced, Expr.unplaced, ihLhs, ihRhs]

/-! ## The grammar -/

theorem derives_of_map_unplaced {rank : Rank} {tokens : List Token} {a : Expr}
    (h : Derives rank tokens a) {others : List Token}
    (hSame : others.map Token.unplaced = tokens.map Token.unplaced) :
    ∃ b, Derives rank others b ∧ b.unplaced = a.unplaced := by
  induction h generalizing others with
  | @sum l r a b t op _ hRank hSymbol _ ihLeft ihRight =>
    obtain ⟨l', t', r', rfl, hLeft, hToken, hRight⟩ := Token.exists_cut_of_map_unplaced hSame
    obtain ⟨a', hDerivesA, hA⟩ := ihLeft hLeft
    obtain ⟨b', hDerivesB, hB⟩ := ihRight hRight
    rw [← Token.isOperator_of_unplaced_eq hToken] at hSymbol
    refine ⟨.binary op a' b' t'.offset, .sum hDerivesA hRank hSymbol hDerivesB, ?_⟩
    rw [Expr.unplaced, Expr.unplaced, hA, hB]
  | ofProduct _ ih =>
    obtain ⟨b, hDerives, hSameExpr⟩ := ih hSame
    exact ⟨b, .ofProduct hDerives, hSameExpr⟩
  | @product l r a b t op _ hRank hSymbol _ ihLeft ihRight =>
    obtain ⟨l', t', r', rfl, hLeft, hToken, hRight⟩ := Token.exists_cut_of_map_unplaced hSame
    obtain ⟨a', hDerivesA, hA⟩ := ihLeft hLeft
    obtain ⟨b', hDerivesB, hB⟩ := ihRight hRight
    rw [← Token.isOperator_of_unplaced_eq hToken] at hSymbol
    refine ⟨.binary op a' b' t'.offset, .product hDerivesA hRank hSymbol hDerivesB, ?_⟩
    rw [Expr.unplaced, Expr.unplaced, hA, hB]
  | ofFactor _ ih =>
    obtain ⟨b, hDerives, hSameExpr⟩ := ih hSame
    exact ⟨b, .ofFactor hDerives, hSameExpr⟩
  | @number t hKind =>
    obtain ⟨t', tail, rfl, hToken, hTail⟩ := List.map_eq_cons_iff.1 hSame
    obtain ⟨hKind', hText⟩ := Token.unplaced_eq_iff.1 hToken
    rw [List.map_eq_nil_iff.1 hTail]
    refine ⟨.leaf t'.text t'.offset, .number (hKind'.trans hKind), ?_⟩
    rw [Expr.unplaced, Expr.unplaced, hText]
  | @paren l a opening closing hOpen _ hClose ih =>
    obtain ⟨opening', tail, rfl, hOpening, hTail⟩ := List.map_eq_cons_iff.1 hSame
    obtain ⟨l', closing', nothing, rfl, hInner, hClosing, hNothing⟩ :=
      Token.exists_cut_of_map_unplaced hTail
    rw [List.map_eq_nil_iff.1 hNothing]
    obtain ⟨b, hDerives, hSameExpr⟩ := ih hInner
    rw [← Token.isParen_of_unplaced_eq hOpening] at hOpen
    rw [← Token.isParen_of_unplaced_eq hClosing] at hClose
    exact ⟨b, .paren hOpen hDerives hClose, hSameExpr⟩

/-! ## Pieces and outlines -/

namespace Expr

theorem pieces_unplaced (e : Expr) : e.unplaced.pieces = e.pieces := by
  induction e with
  | leaf text offset => rfl
  | binary op lhs rhs offset ihLhs ihRhs => rw [unplaced, pieces, pieces, ihLhs, ihRhs]

theorem isZero_unplaced (e : Expr) : e.unplaced.isZero = e.isZero := by
  cases e <;> rfl

theorem zeroDivision?_binary_eq_none {op : Op} {lhs rhs : Expr} {offset : Nat} :
    (binary op lhs rhs offset).zeroDivision? = none ↔
      lhs.zeroDivision? = none ∧ rhs.zeroDivision? = none ∧ ¬ (op = .div ∧ rhs.isZero = true) := by
  simp [zeroDivision?]

theorem zeroDivision?_unplaced (e : Expr) :
    e.unplaced.zeroDivision? = none ↔ e.zeroDivision? = none := by
  induction e with
  | leaf text offset => exact Iff.rfl
  | binary op lhs rhs offset ihLhs ihRhs =>
    rw [unplaced, zeroDivision?_binary_eq_none, zeroDivision?_binary_eq_none, ihLhs, ihRhs,
      isZero_unplaced]

section Same

variable {a b : Expr} (h : a.unplaced = b.unplaced)

include h

theorem pieces_of_unplaced_eq : a.pieces = b.pieces := by
  rw [← a.pieces_unplaced, h, b.pieces_unplaced]

theorem isZero_of_unplaced_eq : a.isZero = b.isZero := by
  rw [← a.isZero_unplaced, h, b.isZero_unplaced]

theorem zeroDivision?_of_unplaced_eq : a.zeroDivision? = none ↔ b.zeroDivision? = none := by
  rw [← a.zeroDivision?_unplaced, h, b.zeroDivision?_unplaced]

end Same

end Expr

namespace Outline

theorem ofExpr_unplaced (e : Expr) : ofExpr e.unplaced = ofExpr e := by
  induction e with
  | leaf text offset => rw [Expr.unplaced, ofExpr_leaf, ofExpr_leaf]
  | binary op lhs rhs offset ihLhs ihRhs =>
    rw [Expr.unplaced, ofExpr_binary, ofExpr_binary, ihLhs, ihRhs]

theorem ofExpr_eq_iff {a b : Expr} : ofExpr a = ofExpr b ↔ a.unplaced = b.unplaced := by
  constructor
  · intro h
    induction a generalizing b with
    | leaf text offset =>
      cases b with
      | leaf text' offset' =>
        rw [ofExpr_leaf, ofExpr_leaf] at h
        injection h with hLabel
        rw [Expr.unplaced, Expr.unplaced, hLabel]
      | binary op lhs rhs offset' =>
        rw [ofExpr_leaf, ofExpr_binary] at h
        cases h
    | binary op lhs rhs offset ihLhs ihRhs =>
      cases b with
      | leaf text' offset' =>
        rw [ofExpr_leaf, ofExpr_binary] at h
        cases h
      | binary op' lhs' rhs' offset' =>
        rw [ofExpr_binary, ofExpr_binary] at h
        injection h with hLabel hChildren
        injection hChildren with hLhs hChildren
        injection hChildren with hRhs
        rw [Expr.unplaced, Expr.unplaced, Op.symbol_inj.1 hLabel, ihLhs hLhs, ihRhs hRhs]
  · intro h
    rw [← ofExpr_unplaced a, h, ofExpr_unplaced]

end Outline

/-! ## Errors -/

/-- The token at another offset, which may depend on the one it has. -/
def Token.move (f : Nat → Nat) (t : Token) : Token := { t with offset := f t.offset }

/-- The error at another offset. -/
def Error.move (f : Nat → Nat) (e : Error) : Error := { e with offset := f e.offset }

/-- The error at offset zero. -/
def Error.unplaced (e : Error) : Error := { e with offset := 0 }

theorem Error.unplaced_eq_iff {e err : Error} :
    e.unplaced = err.unplaced ↔ e.kind = err.kind ∧ e.message = err.message := by
  simp [unplaced]

namespace Counter

theorem step_move (f : Nat → Nat) (c : Counter) (t : Token) :
    step c (t.move f) = (step c t).mapError (Error.move f) := by
  obtain ⟨awaitsOperand, depth⟩ := c
  cases awaitsOperand with
  | true =>
    simp only [step, apply_ite (Except.mapError (Error.move f))]
    rfl
  | false =>
    simp only [step, apply_ite (Except.mapError (Error.move f))]
    rfl

theorem finish_move (f : Nat → Nat) (eof : Nat) (c : Counter) :
    finish (f eof) c = (finish eof c).mapError (Error.move f) := by
  obtain ⟨awaitsOperand, depth⟩ := c
  cases awaitsOperand with
  | true => rfl
  | false =>
    simp only [finish, apply_ite (Except.mapError (Error.move f))]
    rfl

/-- The reader looks at no offset: tokens that are moved have the same outcome, and an error is
moved like them. -/
theorem run_move (f : Nat → Nat) (eof : Nat) (c : Counter) (tokens : List Token) :
    run (f eof) c (tokens.map (Token.move f)) = (run eof c tokens).mapError (Error.move f) := by
  induction tokens generalizing c with
  | nil => exact finish_move f eof c
  | cons t tokens ih =>
    rw [List.map_cons, run_cons, run_cons, step_move]
    cases step c t with
    | error err => rfl
    | ok next => exact ih next

end Counter

end ReversePolish
