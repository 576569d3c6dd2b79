import Mathlib
import ReversePolish.Proofs.Compiling

/-!
# Compiling keeps the meaning

The meaning of tokens is read off the grammar, production by production, without a tree in between.
The meaning of reverse Polish text is what the stack machine makes of it. Compiling a source takes
the one to the other, whatever the numbers and the operators mean.

* `Denotes`: the value of tokens at a level of binding, `none` where an application is undefined.
* `denotes_iff_eval`: tokens denote the value of the expression they derive, and no other.
* `run_rpn_of_compile`: the machine ends with exactly the value that the tokens denote, or stops as
  undefined if they denote none. It never lacks an operand and leaves nothing else on the stack.
-/

namespace ReversePolish

universe u

/-- The value of two operands under an operator, undefined if either operand is. -/
def Arithmetic.combine {V : Type u} (A : Arithmetic V) (op : Op) (x y : Option V) : Option V :=
  x.bind fun l => y.bind fun r => A.apply op l r

/-- The tokens denote the value at the level. The operators of a level lean to the left, those of
a product bind tighter than those of a sum, and parentheses group. -/
inductive Denotes {V : Type u} (A : Arithmetic V) : Rank → List Token → Option V → Prop where
  | sum {l r : List Token} {x y : Option V} {t : Token} {op : Op} :
    Denotes A .sum l x → op.rank = .sum → t.isOperator op.symbol = true →
      Denotes A .product r y → Denotes A .sum (l ++ t :: r) (A.combine op x y)
  | ofProduct {l : List Token} {x : Option V} : Denotes A .product l x → Denotes A .sum l x
  | product {l r : List Token} {x y : Option V} {t : Token} {op : Op} :
    Denotes A .product l x → op.rank = .product → t.isOperator op.symbol = true →
      Denotes A .factor r y → Denotes A .product (l ++ t :: r) (A.combine op x y)
  | ofFactor {l : List Token} {x : Option V} : Denotes A .factor l x → Denotes A .product l x
  | number {t : Token} : t.kind = .number → Denotes A .factor [t] (some (A.number t.text))
  | paren {l : List Token} {x : Option V} {opening closing : Token} :
    opening.isParen "(" = true → Denotes A .sum l x → closing.isParen ")" = true →
      Denotes A .factor (opening :: (l ++ [closing])) x

variable {V : Type u} (A : Arithmetic V)

theorem denotes_of_derives {rank : Rank} {tokens : List Token} {e : Expr}
    (h : Derives rank tokens e) : Denotes A rank tokens (e.eval A) := by
  induction h with
  | sum _ hRank hSymbol _ ihLeft ihRight => exact .sum ihLeft hRank hSymbol ihRight
  | ofProduct _ ih => exact .ofProduct ih
  | product _ hRank hSymbol _ ihLeft ihRight => exact .product ihLeft hRank hSymbol ihRight
  | ofFactor _ ih => exact .ofFactor ih
  | number hKind => exact .number hKind
  | paren hOpen _ hClose ih => exact .paren hOpen ih hClose

theorem exists_derives_of_denotes {rank : Rank} {tokens : List Token} {x : Option V}
    (h : Denotes A rank tokens x) : ∃ e, Derives rank tokens e ∧ e.eval A = x := by
  induction h with
  | @sum l r x y t op _ hRank hSymbol _ ihLeft ihRight =>
    obtain ⟨a, hLeft, rfl⟩ := ihLeft
    obtain ⟨b, hRight, rfl⟩ := ihRight
    exact ⟨.binary op a b t.offset, .sum hLeft hRank hSymbol hRight, rfl⟩
  | ofProduct _ ih =>
    obtain ⟨a, hDerives, hEval⟩ := ih
    exact ⟨a, .ofProduct hDerives, hEval⟩
  | @product l r x y t op _ hRank hSymbol _ ihLeft ihRight =>
    obtain ⟨a, hLeft, rfl⟩ := ihLeft
    obtain ⟨b, hRight, rfl⟩ := ihRight
    exact ⟨.binary op a b t.offset, .product hLeft hRank hSymbol hRight, rfl⟩
  | ofFactor _ ih =>
    obtain ⟨a, hDerives, hEval⟩ := ih
    exact ⟨a, .ofFactor hDerives, hEval⟩
  | @number t hKind => exact ⟨.leaf t.text t.offset, .number hKind, rfl⟩
  | paren hOpen _ hClose ih =>
    obtain ⟨a, hDerives, hEval⟩ := ih
    exact ⟨a, .paren hOpen hDerives hClose, hEval⟩

theorem denotes_iff_eval {tokens : List Token} {e : Expr} (h : Derives .sum tokens e)
    (x : Option V) : Denotes A .sum tokens x ↔ x = e.eval A := by
  constructor
  · intro hDenotes
    obtain ⟨a, hDerives, rfl⟩ := exists_derives_of_denotes A hDenotes
    rw [Expr.derives_unique hDerives h]
  · rintro rfl
    exact denotes_of_derives A h

/-- **Compiling keeps the meaning.** The tokens of a source that compiles denote exactly one value,
possibly the undefined one. From the empty stack the machine takes the pieces of the compiled text
to exactly that value, or stops as undefined. -/
theorem run_rpn_of_compile {source : String} {c : Compilation} (h : compile source = .ok c) :
    ∃ value : Option V,
      (∀ x, Denotes A .sum (Scan.ofSource source).tokens x ↔ x = value) ∧
        Rpn.run A (Rpn.split c.rpn) [] =
          match value with
          | some v => .ok [v]
          | none => .error .undefined := by
  obtain ⟨e, hDerives, -, rfl⟩ := compile_eq_ok.1 h
  have hNumeric := Expr.numeric_of_source hDerives
  refine ⟨e.eval A, denotes_iff_eval A hDerives, ?_⟩
  have hRun := Rpn.run_pieces A hNumeric.plain [] []
  rw [List.append_nil] at hRun
  rw [hNumeric.split_intercalate, hRun]
  rfl

/-- The integers, where nothing is divided by zero. -/
def Arithmetic.integers : Arithmetic Int where
  number text := Text.natOfDigits text.toList
  apply
    | .add, l, r => some (l + r)
    | .sub, l, r => some (l - r)
    | .mul, l, r => some (l * r)
    | .div, l, r => if r = 0 then none else some (l / r)

/-- Two sources over the integers: one with a value, and one that divides by a difference of
zero. -/
theorem run_rpn_of_compile_integers :
    (compile "8-3-2*(5-4)").map (·.rpn) = .ok "8 3 - 2 5 4 - * -" ∧
      Denotes .integers .sum (Scan.ofSource "8-3-2*(5-4)").tokens (some 3) ∧
      (compile "1/(2-2)").map (·.rpn) = .ok "1 2 2 - /" ∧
      Denotes .integers .sum (Scan.ofSource "1/(2-2)").tokens none := by
  have hRead : Expr.ofTokens (Scan.ofSource "8-3-2*(5-4)").tokens = .ok (.binary .sub
      (.binary .sub (.leaf "8" 0) (.leaf "3" 2) 1)
      (.binary .mul (.leaf "2" 4) (.binary .sub (.leaf "5" 7) (.leaf "4" 9) 8) 5) 3) := by cbv
  have hValue : (compile "8-3-2*(5-4)").map (·.rpn) = .ok "8 3 - 2 5 4 - * -" :=
    map_eq_ok.2 ⟨_, compile_eq_ok.2 ⟨_, Expr.derives_of_ofTokens hRead, by cbv, rfl⟩, by cbv⟩
  have hNone : (compile "1/(2-2)").map (·.rpn) = .ok "1 2 2 - /" := by cbv
  refine ⟨hValue, ?_, hNone, ?_⟩
  · obtain ⟨c, hCompile, hRpn⟩ := map_eq_ok.1 hValue
    obtain ⟨value, hDenotes, hRun⟩ := run_rpn_of_compile Arithmetic.integers hCompile
    have hMachine : Rpn.run .integers (Rpn.split "8 3 - 2 5 4 - * -") [] = .ok [3] := by cbv
    rw [hRpn, hMachine] at hRun
    cases value with
    | none => cases hRun
    | some v =>
      cases hRun
      exact (hDenotes (some 3)).2 rfl
  · obtain ⟨c, hCompile, hRpn⟩ := map_eq_ok.1 hNone
    obtain ⟨value, hDenotes, hRun⟩ := run_rpn_of_compile Arithmetic.integers hCompile
    have hMachine : Rpn.run .integers (Rpn.split "1 2 2 - /") [] = .error .undefined := by cbv
    rw [hRpn, hMachine] at hRun
    cases value with
    | none => exact (hDenotes none).2 rfl
    | some v => cases hRun

end ReversePolish
