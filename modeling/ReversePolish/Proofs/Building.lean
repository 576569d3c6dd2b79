import Mathlib.Logic.Relation
import ReversePolish.Proofs.Unplaced

/-!
# How outlines are built

The walk that outlines an expression keeps the outlines built so far on a stack. Putting a label
over two of them takes whatever the stack holds, also if that is less than two, and at the end a
blank outline stands in for a missing one. Neither ever happens.

* `Outline.Walk`, `Outline.Walk.next?`: where the walk stands, and its next step.
* `Outline.Walk.build_eq`: `Outline.build` takes these steps until there is none.
* `Outline.Walk.Covered`: counting the outlines on the stack, every join to come finds two of them
  and one is left at the end. A step keeps this (`Outline.Walk.covered_of_next?`), and so does a
  run.
* `Outline.image`: the outline of an expression, by recursion on the expression.
* `Outline.walk_reaches_image`: what the walk goes through, how it ends and what it gives.
-/

namespace ReversePolish

namespace Outline

/-- The outline of an expression, node by node. -/
def image : Expr → Outline
  | .leaf text _ => ⟨text, []⟩
  | .binary op lhs rhs _ => ⟨op.symbol, [image lhs, image rhs]⟩

theorem ofExpr_eq_image (e : Expr) : ofExpr e = image e := by
  induction e with
  | leaf text offset => exact ofExpr_leaf text offset
  | binary op lhs rhs offset ihLhs ihRhs => rw [ofExpr_binary, ihLhs, ihRhs, image]

/-- Where the walk stands: what is left to do, and the outlines built so far, the last one first. -/
structure Walk where
  tasks : List Task
  built : List Outline

namespace Walk

/-- The walk of an expression before its first step. -/
def start (e : Expr) : Walk := ⟨[.visit e], []⟩

/-- The next step of the walk, none if nothing is left to do. -/
def next? : Walk → Option Walk
  | ⟨[], _⟩ => none
  | ⟨.visit (.leaf text _) :: tasks, built⟩ => some ⟨tasks, ⟨text, []⟩ :: built⟩
  | ⟨.visit (.binary op lhs rhs _) :: tasks, built⟩ =>
    some ⟨.visit lhs :: .visit rhs :: .join op.symbol :: tasks, built⟩
  | ⟨.join label :: tasks, built⟩ =>
    some ⟨tasks, ⟨label, (built.take 2).reverse⟩ :: built.drop 2⟩

/-- The walk goes from one place to the other in some number of steps. -/
def Reaches : Walk → Walk → Prop := Relation.ReflTransGen fun w w' => w.next? = some w'

/-! ## The walk is what builds -/

theorem build_eq (w : Walk) :
    build w.tasks w.built =
      match w.next? with
      | none => w.built
      | some w' => build w'.tasks w'.built := by
  fun_cases next? w <;> rw [build]

theorem reaches_build (tasks : List Task) (built : List Outline) :
    Reaches ⟨tasks, built⟩ ⟨[], build tasks built⟩ := by
  fun_induction build tasks built with
  | case1 built => exact .refl
  | case2 text offset tasks built ih => exact .head rfl ih
  | case3 op lhs rhs offset tasks built ih => exact .head rfl ih
  | case4 label tasks built ih => exact .head rfl ih

theorem build_of_reaches {w w' : Walk} (h : Reaches w w') :
    build w'.tasks w'.built = build w.tasks w.built := by
  induction h with
  | refl => rfl
  | @tail middle last _ hStep ih =>
    rw [← ih, build_eq middle]
    simp only [hStep]

/-! ## The stack never runs short -/

/-- With `count` outlines on the stack, every join among the tasks finds two of them, and one is
left at the end. -/
def Covered : List Task → Nat → Prop
  | [], count => count = 1
  | .visit _ :: tasks, count => Covered tasks (count + 1)
  | .join _ :: tasks, count => 2 ≤ count ∧ Covered tasks (count - 1)

theorem covered_of_next? {w w' : Walk} (h : w.next? = some w')
    (hCovered : Covered w.tasks w.built.length) : Covered w'.tasks w'.built.length := by
  revert h
  fun_cases next? w with
  | case1 built => nofun
  | case2 text offset tasks built =>
    rintro ⟨⟩
    exact hCovered
  | case3 op lhs rhs offset tasks built =>
    -- The operands add two outlines and the join takes one away.
    rintro ⟨⟩
    exact ⟨by simp, hCovered⟩
  | case4 label tasks built =>
    rintro ⟨⟩
    have hTwo : 2 ≤ built.length := hCovered.1
    have hLength : (built.drop 2).length + 1 = built.length - 1 := by
      rw [List.length_drop]
      omega
    rw [List.length_cons, hLength]
    exact hCovered.2

theorem covered_of_reaches {e : Expr} {w : Walk} (h : Reaches (start e) w) :
    Covered w.tasks w.built.length := by
  induction h with
  | refl => rfl
  | tail _ hStep ih => exact covered_of_next? hStep ih

end Walk

/-- **The outline is the image of the expression.** Whenever the walk puts a label over outlines,
the stack holds its two operands. From every place the walk goes on to the end, where the stack
holds the image of the expression and nothing else, so that no blank outline stands in. Two
expressions have the same outline if and only if they differ at most in offsets. -/
theorem walk_reaches_image (e : Expr) :
    (∀ w label tasks, Walk.Reaches (.start e) w → w.tasks = .join label :: tasks →
        ∃ lhs rhs below, w.built = rhs :: lhs :: below ∧
          w.next? = some ⟨tasks, ⟨label, [lhs, rhs]⟩ :: below⟩) ∧
      (∀ w, Walk.Reaches (.start e) w → Walk.Reaches w ⟨[], [image e]⟩) ∧
      (∀ w, Walk.Reaches (.start e) w → w.next? = none → w.built = [image e]) ∧
      ofExpr e = image e ∧
      ∀ e', ofExpr e = ofExpr e' ↔ e.unplaced = e'.unplaced := by
  have hBuild : build [.visit e] [] = [image e] := by
    rw [build_visit, ofExpr_eq_image]
  refine ⟨?_, ?_, ?_, ofExpr_eq_image e, fun e' => ofExpr_eq_iff⟩
  · rintro ⟨tasks', built⟩ label tasks hReaches rfl
    obtain ⟨hTwo, -⟩ := Walk.covered_of_reaches hReaches
    rcases built with _ | ⟨rhs, _ | ⟨lhs, below⟩⟩
    · cases hTwo
    · simp at hTwo
    · exact ⟨lhs, rhs, below, rfl, rfl⟩
  · intro w hReaches
    have hEnd := Walk.reaches_build w.tasks w.built
    rwa [Walk.build_of_reaches hReaches, Walk.start, hBuild] at hEnd
  · intro w hReaches hNone
    have hEnd := Walk.build_eq w
    rw [hNone, Walk.build_of_reaches hReaches, Walk.start, hBuild] at hEnd
    exact hEnd.symm

/-- A difference whose left operand is spelled like its operator and whose right operand is spelled
with nothing. -/
def difference : Expr := .binary .sub (.leaf "-" 3) (.leaf "" 4) 5

/-- The last step of the difference finds both operands, in this order, and the outline tells the
operator from the operand. -/
theorem walk_reaches_image_difference :
    Walk.next? ⟨[.join "-"], [⟨"", []⟩, ⟨"-", []⟩]⟩ = some ⟨[], [⟨"-", [⟨"-", []⟩, ⟨"", []⟩]⟩]⟩ ∧
      Walk.Reaches ⟨[.join "-"], [⟨"", []⟩, ⟨"-", []⟩]⟩ ⟨[], [image difference]⟩ ∧
      [⟨"-", [⟨"-", []⟩, ⟨"", []⟩]⟩] = [image difference] ∧
      ofExpr difference ≠ ofExpr (.leaf "-" 5) := by
  have hBefore : Walk.Reaches (.start difference) ⟨[.join "-"], [⟨"", []⟩, ⟨"-", []⟩]⟩ :=
    .head rfl (.head rfl (.head rfl .refl))
  obtain ⟨hJoin, hEnd, hLast, -, hSame⟩ := walk_reaches_image difference
  obtain ⟨lhs, rhs, below, hBuilt, hNext⟩ := hJoin _ "-" [] hBefore rfl
  cases hBuilt
  refine ⟨hNext, hEnd _ hBefore, hLast _ (hBefore.tail hNext) rfl, fun hOutline => ?_⟩
  exact absurd ((hSame _).1 hOutline) (by decide)

end Outline

end ReversePolish
