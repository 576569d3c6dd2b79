import ReversePolish.Expr.Eval
import ReversePolish.Rpn

/-!
# A stack machine for reverse Polish text

The machine takes one piece after the other: a number is pushed, an operator takes its right and
then its left operand off the stack and pushes the result.

* `Rpn.split`: the pieces of a text, and `Rpn.split_intercalate`, which gets back the pieces that a
  text was put together from.
* `Rpn.run`: the machine on a list of pieces.
* `Rpn.run_pieces`: the pieces of an expression leave exactly its value on the stack, or fail
  exactly if it has none. They never take more operands than they pushed.
-/

namespace ReversePolish

universe u

/-- The operator of a given symbol. -/
def Op.ofSymbol? (symbol : String) : Option Op :=
  [Op.add, .sub, .mul, .div].find? fun op => op.symbol == symbol

theorem Op.ofSymbol?_symbol (op : Op) : Op.ofSymbol? op.symbol = some op := by
  cases op <;> decide

theorem Op.ofSymbol?_eq_some {symbol : String} {op : Op} :
    Op.ofSymbol? symbol = some op ↔ symbol = op.symbol := by
  constructor
  · intro h
    have hFound : op.symbol = symbol := by simpa using List.find?_some h
    exact hFound.symm
  · rintro rfl
    exact Op.ofSymbol?_symbol op

/-- No number in the expression is spelled like an operator. -/
def Expr.Plain : Expr → Prop
  | .leaf text _ => Op.ofSymbol? text = none
  | .binary _ lhs rhs _ => lhs.Plain ∧ rhs.Plain

namespace Rpn

/-! ## The pieces of a text -/

/-- What stands between the spaces of the text. -/
def split (text : String) : List String := (text.toList.splitOn ' ').map String.ofList

theorem split_intercalate {pieces : List String} (hSome : pieces ≠ [])
    (h : ∀ piece ∈ pieces, ' ' ∉ piece.toList) : split (" ".intercalate pieces) = pieces := by
  have hChars : ∀ cs ∈ pieces.map String.toList, ' ' ∉ cs := by
    intro cs hcs
    obtain ⟨piece, hPiece, rfl⟩ := List.mem_map.1 hcs
    exact h piece hPiece
  have hSpace : " ".toList = [' '] := rfl
  rw [split, String.toList_intercalate, hSpace, List.splitOn_intercalate ' ' hChars (by simpa)]
  simp [Function.comp_def]

theorem intercalate_split (text : String) : " ".intercalate (split text) = text := by
  have hSpace : " ".toList = [' '] := rfl
  rw [← String.toList_inj, String.toList_intercalate, hSpace, split]
  simp [Function.comp_def]

/-! ## The machine -/

variable {V : Type u}

/-- Why the machine stops early. -/
inductive Fault where
  | underflow
  | undefined
  deriving DecidableEq, Repr

/-- Takes one piece. -/
def step (A : Arithmetic V) (stack : List V) (piece : String) : Except Fault (List V) :=
  match Op.ofSymbol? piece with
  | none => .ok (A.number piece :: stack)
  | some op =>
    match stack with
    | rhs :: lhs :: rest =>
      match A.apply op lhs rhs with
      | some value => .ok (value :: rest)
      | none => .error .undefined
    | _ => .error .underflow

/-- Takes the pieces in order. -/
def run (A : Arithmetic V) : List String → List V → Except Fault (List V)
  | [], stack => .ok stack
  | piece :: pieces, stack => do
    let stack ← step A stack piece
    run A pieces stack

theorem run_pieces (A : Arithmetic V) {e : Expr} (h : e.Plain) (rest : List String)
    (stack : List V) :
    run A (e.pieces ++ rest) stack =
      match e.eval A with
      | some value => run A rest (value :: stack)
      | none => .error .undefined := by
  induction e generalizing rest stack with
  | leaf text offset =>
    have hText : Op.ofSymbol? text = none := h
    simp [Expr.pieces, run, step, hText, Expr.eval, bind, Except.bind]
  | binary op lhs rhs offset ihLhs ihRhs =>
    obtain ⟨hLhs, hRhs⟩ := h
    simp only [Expr.pieces, List.append_assoc, ihLhs hLhs, ihRhs hRhs, Expr.eval]
    cases lhs.eval A with
    | none => simp
    | some l =>
      cases rhs.eval A with
      | none => simp
      | some r =>
        cases hApply : A.apply op l r with
        | none => simp [run, step, Op.ofSymbol?_symbol, bind, Except.bind, hApply]
        | some value => simp [run, step, Op.ofSymbol?_symbol, bind, Except.bind, hApply]

end Rpn

end ReversePolish
