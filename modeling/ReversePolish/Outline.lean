import ReversePolish.Expr

/-!
# Outlines

A tree of labels, each with any number of children in order: the view of an expression that
listings and reports show.

* `Outline.ofExpr`: the outline of an expression, a label for each node.
* `Outline.text`: one line for each label, two spaces deeper for each level.

Both keep a list of what is left to do in place of a call stack.

* `Outline.ofExpr_leaf`, `Outline.ofExpr_binary`: the outline follows the expression node by node.
* `Outline.writeLines_singleton`: the lines of an outline are its label's line and then the lines
  of its children, `Outline.linesAt`.
-/

namespace ReversePolish

/-- A label with its children. -/
structure Outline where
  label : String
  children : List Outline
  deriving Repr, Inhabited

namespace Outline

/-! ## Size -/

mutual

/-- The number of labels. -/
def size : Outline → Nat
  | ⟨_, children⟩ => forestSize children + 1

/-- The number of labels of all the outlines. -/
def forestSize : List Outline → Nat
  | [] => 0
  | t :: ts => t.size + forestSize ts

end

/-! ## The outline of an expression -/

/-- What is left to do: outline an expression, or put a label over the last two outlines built. -/
inductive Task where
  | visit (e : Expr)
  | join (label : String)
  deriving DecidableEq, Repr

/-- A bound on the steps that a task still takes. -/
def Task.weight : Task → Nat
  | .visit e => 2 * e.size
  | .join _ => 1

/-- Does the tasks in order; `built` holds the finished outlines, the last one first. -/
def build : List Task → List Outline → List Outline
  | [], built => built
  | .visit (.leaf text _) :: tasks, built => build tasks (⟨text, []⟩ :: built)
  | .visit (.binary op lhs rhs _) :: tasks, built =>
    build (.visit lhs :: .visit rhs :: .join op.symbol :: tasks) built
  | .join label :: tasks, built =>
    build tasks (⟨label, (built.take 2).reverse⟩ :: built.drop 2)
termination_by tasks => tasks.foldr (·.weight + ·) 0
decreasing_by all_goals simp [Task.weight, Expr.size]; try omega

/-- The outline of an expression: a number is a label without children, an operator a label over
its two operands. -/
def ofExpr (e : Expr) : Outline := (build [.visit e] []).headD ⟨"", []⟩

theorem build_append (first second : List Task) (built : List Outline) :
    build (first ++ second) built = build second (build first built) := by
  fun_induction build first built with
  | case1 built => rfl
  | case2 text offset tasks built ih => simpa [build] using ih
  | case3 op lhs rhs offset tasks built ih => simpa [build] using ih
  | case4 label tasks built ih => simpa [build] using ih

theorem build_cons (task : Task) (tasks : List Task) (built : List Outline) :
    build (task :: tasks) built = build tasks (build [task] built) :=
  build_append [task] tasks built

/-- An expression adds exactly its own outline to those built before it. -/
theorem build_visit (e : Expr) (built : List Outline) :
    build [.visit e] built = ofExpr e :: built := by
  induction e generalizing built with
  | leaf text offset => simp [ofExpr, build]
  | binary op lhs rhs offset ihLhs ihRhs =>
    have hStep (built : List Outline) : build [.visit (.binary op lhs rhs offset)] built =
        ⟨op.symbol, [ofExpr lhs, ofExpr rhs]⟩ :: built := by
      rw [build, build_cons, ihLhs, build_cons, ihRhs]
      simp [build]
    simp [ofExpr, hStep]

theorem ofExpr_leaf (text : String) (offset : Nat) :
    ofExpr (.leaf text offset) = ⟨text, []⟩ := by
  simp [ofExpr, build]

theorem ofExpr_binary (op : Op) (lhs rhs : Expr) (offset : Nat) :
    ofExpr (.binary op lhs rhs offset) = ⟨op.symbol, [ofExpr lhs, ofExpr rhs]⟩ := by
  rw [ofExpr, build, build_cons, build_visit, build_cons, build_visit]
  simp [build]

/-! ## The text of an outline -/

/-- The line of a label that stands `depth` levels below the root. -/
def line (depth : Nat) (label : String) : String :=
  "".pushn ' ' (2 * depth) ++ label ++ "\n"

/-- Outlines that all stand at one depth. -/
def atDepth (depth : Nat) (ts : List Outline) : List (Outline × Nat) := ts.map (·, depth)

theorem forestSize_map_fst_append (ps qs : List (Outline × Nat)) :
    forestSize ((ps ++ qs).map Prod.fst) =
      forestSize (ps.map Prod.fst) + forestSize (qs.map Prod.fst) := by
  induction ps with
  | nil => simp [forestSize]
  | cons p ps ih => simp_all [forestSize, Nat.add_assoc]

@[simp]
theorem map_fst_atDepth (depth : Nat) (ts : List Outline) :
    (atDepth depth ts).map Prod.fst = ts := by
  simp [atDepth, Function.comp_def]

/-- Adds the lines of the outlines to `out`, in order, each outline at its own depth. -/
def writeLines : List (Outline × Nat) → String → String
  | [], out => out
  | (⟨label, children⟩, depth) :: rest, out =>
    writeLines (atDepth (depth + 1) children ++ rest) (out ++ line depth label)
termination_by pending => forestSize (pending.map Prod.fst)
decreasing_by
  rw [forestSize_map_fst_append, map_fst_atDepth]
  simp only [List.map_cons, forestSize, size]
  omega

/-- One line for each label, a parent above its children. -/
def text (t : Outline) : String := writeLines [(t, 0)] ""

/-! ## The text, level by level -/

mutual

/-- The lines of an outline that stands at `depth`. -/
def linesAt (depth : Nat) : Outline → String
  | ⟨label, children⟩ => line depth label ++ forestLinesAt (depth + 1) children

/-- The lines of outlines that all stand at `depth`. -/
def forestLinesAt (depth : Nat) : List Outline → String
  | [] => ""
  | t :: ts => t.linesAt depth ++ forestLinesAt depth ts

end

theorem writeLines_append (first second : List (Outline × Nat)) (out : String) :
    writeLines (first ++ second) out = writeLines second (writeLines first out) := by
  fun_induction writeLines first out with
  | case1 out => rfl
  | case2 label children depth rest out ih => simpa [writeLines] using ih

mutual

theorem writeLines_singleton (t : Outline) (depth : Nat) (out : String) :
    writeLines [(t, depth)] out = out ++ t.linesAt depth := by
  obtain ⟨label, children⟩ := t
  rw [writeLines, List.append_nil, writeLines_atDepth, linesAt, String.append_assoc]

theorem writeLines_atDepth (ts : List Outline) (depth : Nat) (out : String) :
    writeLines (atDepth depth ts) out = out ++ forestLinesAt depth ts := by
  match ts with
  | [] => simp [atDepth, writeLines, forestLinesAt]
  | t :: ts =>
    have hSplit : atDepth depth (t :: ts) = [(t, depth)] ++ atDepth depth ts := rfl
    rw [hSplit, writeLines_append, writeLines_singleton, writeLines_atDepth, forestLinesAt,
      String.append_assoc]

end

end Outline

end ReversePolish
