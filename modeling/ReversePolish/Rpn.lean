import ReversePolish.Error
import ReversePolish.Expr
import ReversePolish.Text.Decimal

/-!
# Reverse Polish text

Writes an expression with every operator after its operands, the pieces set apart by single
spaces, and refuses a division whose divisor is a number that reads as zero. Only the immediate
divisor is looked at, so `1/(2-2)` is written.

The walk keeps a list of what is left to do in place of a call stack, so that a chain of operators
may be as long as the source.

* `Rpn.Task`: one thing left to do, with `Rpn.Task.weight`, which shrinks at every step.
* `Rpn.write`: the walk.
* `Expr.toRpn`: the reverse Polish text of an expression, or the first division by zero.
* `Rpn.write_visit`: what the walk does with an expression, said by recursion on the expression:
  it adds `Expr.pieces` or stops at `Expr.zeroDivision?`.
-/

namespace ReversePolish

/-- A number that reads as zero. -/
def Expr.isZero : Expr → Bool
  | .leaf text _ => Text.readsAsZero text
  | .binary .. => false

namespace Rpn

/-- Adds a piece to the text, after a space unless nothing is written yet. -/
def emit (out piece : String) : String :=
  if out.isEmpty then piece else out ++ " " ++ piece

/-- What is left to do: write a whole expression, or write the operator of one whose operands are
written already. -/
inductive Task where
  | visit (e : Expr)
  | combine (op : Op) (rhs : Expr) (offset : Nat)
  deriving DecidableEq, Repr

/-- A bound on the steps that a task still takes. -/
def Task.weight : Task → Nat
  | .visit e => 2 * e.size
  | .combine .. => 1

/-- Does the tasks in order, adding to `out`. -/
def write : List Task → String → Except Error String
  | [], out => .ok out
  | .visit (.leaf text _) :: tasks, out => write tasks (emit out text)
  | .visit (.binary op lhs rhs offset) :: tasks, out =>
    write (.visit lhs :: .visit rhs :: .combine op rhs offset :: tasks) out
  | .combine op rhs offset :: tasks, out =>
    if op = .div ∧ rhs.isZero then .error (.divisionByZero offset)
    else write tasks (emit out op.symbol)
termination_by tasks => tasks.foldr (·.weight + ·) 0
decreasing_by all_goals simp [Task.weight, Expr.size]; try omega

end Rpn

/-- The reverse Polish text of the expression. -/
def Expr.toRpn (e : Expr) : Except Error String := Rpn.write [.visit e] ""

/-! ## The walk, node by node -/

namespace Expr

/-- The pieces of the reverse Polish text: those of the left operand, those of the right operand,
and the operator. -/
def pieces : Expr → List String
  | .leaf text _ => [text]
  | .binary op lhs rhs _ => lhs.pieces ++ rhs.pieces ++ [op.symbol]

/-- The offset of the first division by zero, with both operands of a node before the node. -/
def zeroDivision? : Expr → Option Nat
  | .leaf .. => none
  | .binary op lhs rhs offset =>
    lhs.zeroDivision? <|> rhs.zeroDivision? <|>
      if op = .div ∧ rhs.isZero then some offset else none

end Expr

/-- Visiting an expression writes its pieces, unless it divides by zero. -/
theorem Rpn.write_visit (e : Expr) (tasks : List Task) (out : String) :
    write (.visit e :: tasks) out =
      match e.zeroDivision? with
      | some offset => .error (.divisionByZero offset)
      | none => write tasks (e.pieces.foldl emit out) := by
  induction e generalizing tasks out with
  | leaf text offset => simp [write, Expr.zeroDivision?, Expr.pieces]
  | binary op lhs rhs offset ihLhs ihRhs =>
    rw [write, ihLhs, Expr.zeroDivision?]
    cases hLhs : lhs.zeroDivision? with
    | some found => simp
    | none =>
      simp only [ihRhs]
      cases hRhs : rhs.zeroDivision? with
      | some found => simp
      | none =>
        by_cases hZero : op = .div ∧ rhs.isZero = true
        · simp [write, hZero]
        · simp [write, hZero, Expr.pieces]

end ReversePolish
