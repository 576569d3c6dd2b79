import ReversePolish.Expr

/-!
# The value of an expression

Expressions are written and never evaluated; what they mean depends on what the numbers and the
operators are taken to mean.

* `Arithmetic`: an interpretation of the numbers and of the operators, which may be partial.
* `Expr.eval`: the value of an expression under an interpretation.
-/

namespace ReversePolish

universe u

/-- What numbers and operators mean. An application may be undefined. -/
structure Arithmetic (V : Type u) where
  number : String → V
  apply : Op → V → V → Option V

/-- The value of the expression, undefined if any application in it is. -/
def Expr.eval {V : Type u} (A : Arithmetic V) : Expr → Option V
  | .leaf text _ => some (A.number text)
  | .binary op lhs rhs _ => do
    let l ← lhs.eval A
    let r ← rhs.eval A
    A.apply op l r

end ReversePolish
