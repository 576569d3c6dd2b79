/-!
# Expressions

The trees that arithmetic text stands for. A number is kept as it was written and never evaluated;
parentheses shape the tree and leave no node. Every node remembers the byte offset of the token it
came from, a binary node that of its operator.

* `Op`: the four operators and their symbols.
* `Expr`: a number, or an operator with two operands.
-/

namespace ReversePolish

/-- The binary operators. -/
inductive Op where
  | add
  | sub
  | mul
  | div
  deriving DecidableEq, Repr

/-- How an operator is written. -/
def Op.symbol : Op → String
  | .add => "+"
  | .sub => "-"
  | .mul => "*"
  | .div => "/"

theorem Op.symbol_inj {a b : Op} : a.symbol = b.symbol ↔ a = b := by
  cases a <;> cases b <;> decide

/-- An arithmetic expression. -/
inductive Expr where
  | leaf (text : String) (offset : Nat)
  | binary (op : Op) (lhs rhs : Expr) (offset : Nat)
  deriving DecidableEq, Repr, Inhabited

/-- The number of nodes. -/
def Expr.size : Expr → Nat
  | .leaf .. => 1
  | .binary _ lhs rhs _ => lhs.size + rhs.size + 1

end ReversePolish
