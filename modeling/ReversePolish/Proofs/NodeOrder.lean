import Mathlib
import ReversePolish.Proofs.Compiling
import ReversePolish.Proofs.Tiling

/-!
# The nodes of an expression in order

Every node of an expression stands for one token. From left to right the nodes are the tokens that
the expression was read from, less the parentheses; with both operands before their operator they
are the pieces of its reverse Polish text.

* `Expr.token`: the token that a node stands for.
* `Expr.inorder`, `Expr.postorder`: the nodes from left to right, and with operands first.
* `Expr.map_token_inorder_of_derives`: reading loses no token, adds none and keeps their order.
* `Expr.find?_inorder`: the first division by zero is the same in both orders. The divisor of a
  division by zero is a number, so that nothing stands between the two places of the node.
* `Expr.NoEmptyText`: no number is written with nothing, so that every piece leaves a space.
* `Expr.inorder_of_ofTokens`: what reading tokens says about them, whether they come from a source
  or not.
* `Expr.toRpn_eq_postorder`: the walk that writes an expression goes through its nodes in
  post-order.
-/

namespace ReversePolish

namespace Expr

/-! ## Nodes -/

/-- The token that the root stands for: a number, or an operator with operands around it. -/
def token : Expr → Token
  | .leaf text offset => ⟨.number, text, offset⟩
  | .binary op _ _ offset => ⟨.operator, op.symbol, offset⟩

/-- The nodes from left to right, an operator between its operands. -/
def inorder : Expr → List Expr
  | .leaf text offset => [.leaf text offset]
  | .binary op lhs rhs offset => lhs.inorder ++ .binary op lhs rhs offset :: rhs.inorder

/-- The nodes with the operands of an operator before it, the left one first. -/
def postorder : Expr → List Expr
  | .leaf text offset => [.leaf text offset]
  | .binary op lhs rhs offset => lhs.postorder ++ rhs.postorder ++ [.binary op lhs rhs offset]

/-- The root divides by a number that reads as zero. -/
def dividesByZero : Expr → Bool
  | .leaf .. => false
  | .binary op _ rhs _ => decide (op = .div ∧ rhs.isZero = true)

/-! ## From left to right -/

theorem filter_kind_of_isOperator {t : Token} {op : Op} (h : t.isOperator op.symbol = true)
    (tokens : List Token) :
    (t :: tokens).filter (·.kind ≠ .paren) =
      ⟨.operator, op.symbol, t.offset⟩ :: tokens.filter (·.kind ≠ .paren) := by
  obtain ⟨kind, text, offset⟩ := t
  obtain ⟨rfl, rfl⟩ := Token.isOperator_iff.1 h
  simp

theorem map_token_inorder_of_derives {rank : Rank} {tokens : List Token} {e : Expr}
    (h : Derives rank tokens e) : e.inorder.map token = tokens.filter (·.kind ≠ .paren) := by
  induction h with
  | sum _ _ hSymbol _ ihLeft ihRight =>
    rw [inorder, List.map_append, List.map_cons, ihLeft, ihRight, List.filter_append,
      filter_kind_of_isOperator hSymbol, token]
  | ofProduct _ ih => exact ih
  | product _ _ hSymbol _ ihLeft ihRight =>
    rw [inorder, List.map_append, List.map_cons, ihLeft, ihRight, List.filter_append,
      filter_kind_of_isOperator hSymbol, token]
  | ofFactor _ ih => exact ih
  | @number t hKind =>
    obtain ⟨kind, text, offset⟩ := t
    obtain rfl : kind = .number := hKind
    rfl
  | paren hOpen _ hClose ih =>
    simp [ih, (Token.isParen_iff.1 hOpen).1, (Token.isParen_iff.1 hClose).1]

/-- Between any two numbers next to each other stands one operator. -/
theorem countP_number_inorder (e : Expr) :
    (e.inorder.map token).countP (·.kind = .number) =
      (e.inorder.map token).countP (·.kind = .operator) + 1 := by
  induction e with
  | leaf text offset => rfl
  | binary op lhs rhs offset ihLhs ihRhs =>
    simp only [inorder, List.map_append, List.map_cons, List.countP_append, List.countP_cons,
      ihLhs, ihRhs, token]
    simp
    omega

theorem countP_filter_kind (tokens : List Token) {kind : Token.Kind} (hKind : kind ≠ .paren) :
    (tokens.filter (·.kind ≠ .paren)).countP (·.kind = kind) = tokens.countP (·.kind = kind) := by
  rw [List.countP_filter]
  apply List.countP_congr
  intro t _
  by_cases h : t.kind = kind
  · simp [h, hKind]
  · simp [h]

/-- **Reading keeps the tokens.** The nodes of an expression from left to right stand for the tokens
that it was read from, less the parentheses: numbers for numbers and operators for operators, each
with its text and its offset. So there is one number more than there are operators, and the nodes of
an expression read from a source stand at increasing offsets. -/
theorem inorder_of_ofTokens {tokens : List Token} {e : Expr} (h : ofTokens tokens = .ok e) :
    e.inorder.map token = tokens.filter (·.kind ≠ .paren) ∧
      tokens.countP (·.kind = .number) = tokens.countP (·.kind = .operator) + 1 ∧
      ∀ source, (Scan.ofSource source).tokens = tokens →
        (e.inorder.map (·.token.offset)).Pairwise (· < ·) := by
  have hTokens := map_token_inorder_of_derives (derives_of_ofTokens h)
  refine ⟨hTokens, ?_, ?_⟩
  · have hCount := e.countP_number_inorder
    rwa [hTokens, countP_filter_kind tokens (by decide), countP_filter_kind tokens (by decide)]
      at hCount
  · rintro source rfl
    have hSorted : ((Scan.ofSource source).tokens.filter (·.kind ≠ .paren)).Pairwise
        fun t u => t.offset < u.offset :=
      (Scan.tiles_ofSource source).tokens_increasing.filter _
    rw [← hTokens, List.pairwise_map] at hSorted
    exact List.pairwise_map.2 hSorted

/-- The tokens of `((8-(3))*2)`. -/
def bracketedProduct : List Token := (Scan.ofSource "((8-(3))*2)").tokens

/-- Parentheses around an operand, around an operator and around the whole: three numbers and two
operators are left, at increasing offsets. -/
theorem inorder_of_ofTokens_product :
    ∃ e, ofTokens bracketedProduct = .ok e ∧
      e.inorder.map token = [⟨.number, "8", 2⟩, ⟨.operator, "-", 3⟩, ⟨.number, "3", 5⟩,
        ⟨.operator, "*", 8⟩, ⟨.number, "2", 9⟩] ∧
      bracketedProduct.countP (·.kind = .number) = 3 ∧
      (e.inorder.map (·.token.offset)).Pairwise (· < ·) := by
  have hRead : ofTokens bracketedProduct = .ok (.binary .mul
      (.binary .sub (.leaf "8" 2) (.leaf "3" 5) 3) (.leaf "2" 9) 8) := by cbv
  obtain ⟨hTokens, -, hOffsets⟩ := inorder_of_ofTokens hRead
  exact ⟨_, hRead, by rw [hTokens]; cbv, by cbv, hOffsets _ rfl⟩

/-! ## Operands first -/

theorem pieces_eq_map_postorder (e : Expr) : e.pieces = e.postorder.map (·.token.text) := by
  induction e with
  | leaf text offset => rfl
  | binary op lhs rhs offset ihLhs ihRhs =>
    rw [pieces, postorder, List.map_append, List.map_append, ihLhs, ihRhs]
    rfl

theorem zeroDivision?_eq_find?_postorder (e : Expr) :
    e.zeroDivision? = (e.postorder.find? dividesByZero).map (·.token.offset) := by
  induction e with
  | leaf text offset => rfl
  | binary op lhs rhs offset ihLhs ihRhs =>
    have hNode : ([binary op lhs rhs offset].find? dividesByZero).map (·.token.offset) =
        if op = .div ∧ rhs.isZero = true then some offset else none := by
      by_cases hZero : op = .div ∧ rhs.isZero = true
      · simp [dividesByZero, hZero, token]
      · simp only [List.find?_singleton, dividesByZero, decide_eq_true_eq, if_neg hZero,
          Option.map_none]
    rw [zeroDivision?, postorder, List.find?_append, List.find?_append, Option.map_or,
      Option.map_or, hNode, ihLhs, ihRhs]
    simp only [Option.orElse_eq_orElse, Option.orElse_eq_or, Option.or_assoc]

theorem find?_postorder_of_isZero {e : Expr} (h : e.isZero = true) :
    e.postorder.find? dividesByZero = none := by
  cases e with
  | leaf text offset => rfl
  | binary op lhs rhs offset => cases h

theorem find?_inorder (e : Expr) :
    e.inorder.find? dividesByZero = e.postorder.find? dividesByZero := by
  induction e with
  | leaf text offset => rfl
  | binary op lhs rhs offset ihLhs ihRhs =>
    rw [inorder, postorder, List.find?_append, List.find?_append, List.find?_append, ihLhs,
      List.find?_cons, List.find?_cons, ihRhs]
    cases hZero : (binary op lhs rhs offset).dividesByZero with
    | false => simp
    | true =>
      have hRhs : rhs.isZero = true := (of_decide_eq_true hZero).2
      simp [find?_postorder_of_isZero hRhs]

/-! ## Expressions without empty numbers -/

/-- No number of the expression is written with nothing at all. -/
def NoEmptyText (e : Expr) : Prop := ∀ text offset, .leaf text offset ∈ e.postorder → text ≠ ""

theorem NoEmptyText.piece_ne_empty {e : Expr} (h : e.NoEmptyText) :
    ∀ piece ∈ e.pieces, piece ≠ "" := by
  intro piece hPiece
  rw [pieces_eq_map_postorder] at hPiece
  obtain ⟨node, hNode, rfl⟩ := List.mem_map.1 hPiece
  cases node with
  | leaf text offset => exact h text offset hNode
  | binary op lhs rhs offset => exact Rpn.IsPiece.ne_empty (Or.inr ⟨op, rfl⟩)

theorem NoEmptyText.operands {op : Op} {lhs rhs : Expr} {offset : Nat}
    (h : (binary op lhs rhs offset).NoEmptyText) : lhs.NoEmptyText ∧ rhs.NoEmptyText := by
  constructor
  · intro text place hLeaf
    exact h text place (by simp [postorder, hLeaf])
  · intro text place hLeaf
    exact h text place (by simp [postorder, hLeaf])

theorem NoEmptyText.foldl_emit {e : Expr} (h : e.NoEmptyText) :
    e.pieces.foldl Rpn.emit "" = " ".intercalate e.pieces :=
  Rpn.foldl_emit h.piece_ne_empty

theorem NoEmptyText.toRpn_binary {op : Op} {lhs rhs : Expr} {offset : Nat}
    (h : (binary op lhs rhs offset).NoEmptyText) :
    (binary op lhs rhs offset).toRpn = (do
      let left ← lhs.toRpn
      let right ← rhs.toRpn
      if op = .div ∧ rhs.isZero = true then .error (.divisionByZero offset)
      else .ok (left ++ " " ++ right ++ " " ++ op.symbol)) := by
  obtain ⟨hLhs, hRhs⟩ := h.operands
  have hText : " ".intercalate (binary op lhs rhs offset).pieces =
      " ".intercalate lhs.pieces ++ " " ++ " ".intercalate rhs.pieces ++ " " ++ op.symbol := by
    rw [pieces, String.intercalate_append_of_ne_nil (by simp [lhs.pieces_ne_nil]) (by simp),
      String.intercalate_append_of_ne_nil lhs.pieces_ne_nil rhs.pieces_ne_nil,
      String.intercalate_singleton]
  rw [toRpn_eq, toRpn_eq, toRpn_eq, h.foldl_emit, hLhs.foldl_emit, hRhs.foldl_emit, hText,
    zeroDivision?]
  cases lhs.zeroDivision? with
  | some found => rfl
  | none =>
    cases rhs.zeroDivision? with
    | some found => rfl
    | none =>
      by_cases hZero : op = .div ∧ rhs.isZero = true
      · simp [hZero, bind, Except.bind]
      · simp [hZero, bind, Except.bind]

/-- **The walk goes through the nodes in post-order.** It stops at the first node that divides by
zero, which is also the first one from left to right. If there is none it emits the text of every
node. In an expression without empty numbers the text of an operator is that of its operands, with
a space behind each, and the symbol. -/
theorem toRpn_eq_postorder (e : Expr) :
    (∀ node, e.postorder.find? dividesByZero = some node →
        e.toRpn = .error (.divisionByZero node.token.offset) ∧
          e.inorder.find? dividesByZero = some node) ∧
      (e.postorder.find? dividesByZero = none →
        e.toRpn = .ok ((e.postorder.map (·.token.text)).foldl Rpn.emit "")) ∧
      ∀ op lhs rhs offset, e = .binary op lhs rhs offset → e.NoEmptyText →
        e.toRpn = (do
          let left ← lhs.toRpn
          let right ← rhs.toRpn
          if op = .div ∧ rhs.isZero = true then .error (.divisionByZero offset)
          else .ok (left ++ " " ++ right ++ " " ++ op.symbol)) := by
  refine ⟨fun node hFound => ⟨?_, e.find?_inorder.trans hFound⟩, fun hNone => ?_, ?_⟩
  · rw [toRpn_eq, zeroDivision?_eq_find?_postorder, hFound]
    rfl
  · rw [toRpn_eq, zeroDivision?_eq_find?_postorder, hNone, pieces_eq_map_postorder]
    rfl
  · rintro op lhs rhs offset rfl hTexts
    exact hTexts.toRpn_binary

/-- Of two divisions by zero the left one is reported, whatever the offsets are. An empty number
leaves no space behind it, and a number may be spelled like an operator. -/
theorem toRpn_eq_postorder_quotients :
    (binary .add (.binary .div (.leaf "1" 9) (.leaf "-0e7" 8) 6)
        (.binary .div (.leaf "2" 3) (.leaf ".0" 2) 1) 4).toRpn = .error (.divisionByZero 6) ∧
      (binary .sub (.leaf "" 0) (.leaf "+" 0) 0).toRpn = .ok "+ -" ∧
      (binary .sub (.leaf "8" 0) (.leaf "3" 2) 1).toRpn = .ok "8 3 -" := by
  have hTexts : (binary .sub (.leaf "8" 0) (.leaf "3" 2) 1).NoEmptyText := by
    rintro text offset hLeaf rfl
    simp [postorder] at hLeaf
  have hEight := (toRpn_eq_postorder (.leaf "8" 0)).2.1 rfl
  have hThree := (toRpn_eq_postorder (.leaf "3" 2)).2.1 rfl
  refine ⟨?_, ?_, ?_⟩
  · exact ((toRpn_eq_postorder _).1 (.binary .div (.leaf "1" 9) (.leaf "-0e7" 8) 6) (by cbv)).1
  · rw [(toRpn_eq_postorder _).2.1 (by cbv)]
    decide
  · rw [(toRpn_eq_postorder _).2.2 .sub _ _ 1 rfl hTexts, hEight, hThree]
    rfl

end Expr

end ReversePolish
