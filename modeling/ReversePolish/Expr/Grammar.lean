import ReversePolish.Expr
import ReversePolish.Token

/-!
# The grammar of expressions

The left-recursive grammar of expressions, as a relation between tokens and the expression they
spell.

    sum     → sum ('+' | '-') product | product
    product → product ('*' | '/') factor | factor
    factor  → NUMBER | '(' sum ')'

* `Op.rank`: the level at which an operator binds.
* `Derives`: the relation, one constructor for each production. A number may be spelled in any way,
  an operator or a parenthesis only as its symbol.
-/

namespace ReversePolish

/-- The levels of binding, the loosest first. -/
inductive Rank where
  | sum
  | product
  | factor
  deriving DecidableEq, Repr

/-- The level that an operator belongs to. -/
def Op.rank : Op → Rank
  | .add | .sub => .sum
  | .mul | .div => .product

/-- The tokens spell the expression at the level. -/
inductive Derives : Rank → List Token → Expr → Prop where
  | sum {l r : List Token} {a b : Expr} {t : Token} {op : Op} :
    Derives .sum l a → op.rank = .sum → t.isOperator op.symbol = true → Derives .product r b →
      Derives .sum (l ++ t :: r) (.binary op a b t.offset)
  | ofProduct {l : List Token} {a : Expr} : Derives .product l a → Derives .sum l a
  | product {l r : List Token} {a b : Expr} {t : Token} {op : Op} :
    Derives .product l a → op.rank = .product → t.isOperator op.symbol = true →
      Derives .factor r b → Derives .product (l ++ t :: r) (.binary op a b t.offset)
  | ofFactor {l : List Token} {a : Expr} : Derives .factor l a → Derives .product l a
  | number {t : Token} : t.kind = .number → Derives .factor [t] (.leaf t.text t.offset)
  | paren {l : List Token} {a : Expr} {opening closing : Token} :
    opening.isParen "(" = true → Derives .sum l a → closing.isParen ")" = true →
      Derives .factor (opening :: (l ++ [closing])) a

end ReversePolish
