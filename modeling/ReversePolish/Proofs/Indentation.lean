import Mathlib
import ReversePolish.Proofs.Caret
import ReversePolish.Proofs.Compiling

/-!
# Reading outlines back from their text

The text of an outline shows no brackets, only how far each line is indented. That is enough to get
the outline back, whatever the numbers of children are, as long as every label can be told from the
spaces in front of it and from the line feed behind it.

* `Outline.entries`: the labels with their depths, a parent above its children. The text is one line
  for each of them (`Outline.linesAt_eq_join`).
* `Outline.graft`: puts a label over the outlines below it that are one level deeper. From the last
  entry to the first this undoes the listing (`Outline.foldr_graft_entries`).
* `Outline.ofText?`: the outline that a text shows.
* `Outline.Legible`: no label holds a line feed or begins with a space. The outline of every
  compiled source is of that kind.
* `Outline.text_reads_back`: the text is the recursive listing, and it reads back.
-/

namespace ReversePolish

namespace Outline

/-! ## Entries -/

mutual

/-- The labels of an outline that stands at `depth`, each with its own depth, a parent above its
children. -/
def entries (depth : Nat) : Outline → List (Nat × String)
  | ⟨label, children⟩ => (depth, label) :: forestEntries (depth + 1) children

/-- The entries of outlines that all stand at `depth`. -/
def forestEntries (depth : Nat) : List Outline → List (Nat × String)
  | [] => []
  | t :: ts => t.entries depth ++ forestEntries depth ts

end

mutual

theorem linesAt_eq_join (depth : Nat) (t : Outline) :
    t.linesAt depth = String.join ((t.entries depth).map fun entry => line entry.1 entry.2) := by
  obtain ⟨label, children⟩ := t
  rw [linesAt, entries, List.map_cons, String.join_cons, forestLinesAt_eq_join]

theorem forestLinesAt_eq_join (depth : Nat) (ts : List Outline) :
    forestLinesAt depth ts =
      String.join ((forestEntries depth ts).map fun entry => line entry.1 entry.2) := by
  match ts with
  | [] => rfl
  | t :: ts =>
    rw [forestLinesAt, forestEntries, List.map_append, String.join_append, linesAt_eq_join,
      forestLinesAt_eq_join]

end

theorem forestLinesAt_eq_join_map (depth : Nat) (ts : List Outline) :
    forestLinesAt depth ts = String.join (ts.map (linesAt depth)) := by
  induction ts with
  | nil => rfl
  | cons t ts ih => rw [forestLinesAt, List.map_cons, String.join_cons, ih]

theorem text_eq_linesAt (t : Outline) : t.text = t.linesAt 0 := by
  rw [text, writeLines_singleton, String.empty_append]

/-! ## From entries to outlines -/

/-- Puts an entry in front of the outlines behind it: those that come first and are one level deeper
become its children. -/
def graft (entry : Nat × String) (forest : List (Outline × Nat)) : List (Outline × Nat) :=
  (⟨entry.2, (forest.takeWhile (·.2 == entry.1 + 1)).map Prod.fst⟩, entry.1) ::
    forest.dropWhile (·.2 == entry.1 + 1)

/-- The forest does not begin below `depth`, so that it has no children for what stands there. -/
def EndsAbove (depth : Nat) (forest : List (Outline × Nat)) : Prop :=
  ∀ p ∈ forest.head?, p.2 ≤ depth

theorem EndsAbove.mono {m n : Nat} {forest : List (Outline × Nat)} (h : EndsAbove m forest)
    (hLe : m ≤ n) : EndsAbove n forest :=
  fun p hp => (h p hp).trans hLe

theorem endsAbove_atDepth_append (depth : Nat) (ts : List Outline) {forest : List (Outline × Nat)}
    (h : EndsAbove depth forest) : EndsAbove depth (atDepth depth ts ++ forest) := by
  cases ts with
  | nil => exact h
  | cons t ts =>
    rintro p ⟨⟩
    exact Nat.le_refl depth

theorem graft_atDepth_append (depth : Nat) (label : String) (children : List Outline)
    {forest : List (Outline × Nat)} (h : EndsAbove depth forest) :
    graft (depth, label) (atDepth (depth + 1) children ++ forest) =
      (⟨label, children⟩, depth) :: forest := by
  have hChildren : ∀ p ∈ atDepth (depth + 1) children, (p.2 == depth + 1) = true := by
    intro p hp
    obtain ⟨t, -, rfl⟩ := List.mem_map.1 hp
    exact beq_self_eq_true _
  have hForest : ∀ p ∈ forest.head?, (p.2 == depth + 1) = false := by
    intro p hp
    have hLe := h p hp
    exact beq_false_of_ne (by omega)
  obtain ⟨hTake, hDrop⟩ := Lexeme.takeWhile_dropWhile_run hChildren hForest
  rw [graft, hTake, hDrop, map_fst_atDepth]

mutual

theorem foldr_graft_entries (t : Outline) (depth : Nat) {forest : List (Outline × Nat)}
    (h : EndsAbove depth forest) : (t.entries depth).foldr graft forest = (t, depth) :: forest := by
  obtain ⟨label, children⟩ := t
  -- The children are put together first. What comes behind them is too far up to be one of them.
  rw [entries, List.foldr_cons, foldr_graft_forestEntries children (h.mono (Nat.le_succ depth)),
    graft_atDepth_append depth label children h]

theorem foldr_graft_forestEntries (ts : List Outline) {depth : Nat}
    {forest : List (Outline × Nat)} (h : EndsAbove depth forest) :
    (forestEntries depth ts).foldr graft forest = atDepth depth ts ++ forest := by
  match ts with
  | [] => rfl
  | t :: ts =>
    rw [forestEntries, List.foldr_append, foldr_graft_forestEntries ts h,
      foldr_graft_entries t depth (endsAbove_atDepth_append depth ts h)]
    rfl

end

/-! ## From text to entries -/

/-- The depth and the label that a line shows. -/
def readLine (line : List Char) : Nat × String :=
  ((line.takeWhile (· == ' ')).length / 2, String.ofList (line.dropWhile (· == ' ')))

/-- The entries that a text shows, one for each line feed. -/
def readEntries (text : String) : List (Nat × String) :=
  (text.toList.splitOn '\n').dropLast.map readLine

/-- The outline that a text shows, if it shows exactly one that is not indented. -/
def ofText? (text : String) : Option Outline :=
  match (readEntries text).foldr graft [] with
  | [(t, 0)] => some t
  | _ => none

/-- The label can be told from the spaces in front of it and from the line feed behind it. -/
def IsLegible (label : String) : Prop := '\n' ∉ label.toList ∧ label.toList.head? ≠ some ' '

instance (label : String) : Decidable (IsLegible label) :=
  inferInstanceAs (Decidable (_ ∧ _))

/-- Every label of the outline can be told from what stands around it in the text. -/
def Legible (t : Outline) : Prop := ∀ entry ∈ t.entries 0, IsLegible entry.2

instance (t : Outline) : Decidable t.Legible :=
  inferInstanceAs (Decidable (∀ entry ∈ t.entries 0, IsLegible entry.2))

/-- The line of an entry without its line feed. -/
def lineChars (entry : Nat × String) : List Char :=
  List.replicate (2 * entry.1) ' ' ++ entry.2.toList

theorem toList_line (depth : Nat) (label : String) :
    (line depth label).toList = lineChars (depth, label) ++ ['\n'] := by
  rw [line, String.toList_append, String.toList_append, Text.toList_pushn]
  rfl

theorem readLine_lineChars {entry : Nat × String} (h : IsLegible entry.2) :
    readLine (lineChars entry) = entry := by
  have hSpaces : ∀ c ∈ List.replicate (2 * entry.1) ' ', (c == ' ') = true := by
    intro c hc
    exact beq_iff_eq.2 (List.eq_of_mem_replicate hc)
  have hLabel : ∀ c ∈ entry.2.toList.head?, (c == ' ') = false := by
    intro c hc
    apply beq_false_of_ne
    rintro rfl
    exact h.2 hc
  obtain ⟨hTake, hDrop⟩ := Lexeme.takeWhile_dropWhile_run hSpaces hLabel
  rw [readLine, lineChars, hTake, hDrop, List.length_replicate,
    Nat.mul_div_cancel_left _ (by decide), String.ofList_toList]

theorem newline_not_mem_lineChars {entry : Nat × String} (h : IsLegible entry.2) :
    '\n' ∉ lineChars entry := by
  rw [lineChars, List.mem_append]
  rintro (hSpace | hLabel)
  · exact absurd (List.eq_of_mem_replicate hSpace) (by decide)
  · exact h.1 hLabel

/-- Cutting lines that each end in a line feed leaves nothing behind the last one. -/
theorem splitOn_flatMap_lines {lines : List (List Char)} (h : ∀ line ∈ lines, '\n' ∉ line) :
    (lines.flatMap (· ++ ['\n'])).splitOn '\n' = lines ++ [[]] := by
  induction lines with
  | nil => rfl
  | cons line lines ih =>
    obtain ⟨hLine, hLines⟩ := List.forall_mem_cons.1 h
    have hWhole : line.splitOnP (· == '\n') = [line] := by
      apply List.splitOnP_eq_singleton
      intro c hc
      apply beq_false_of_ne
      rintro rfl
      exact hLine hc
    have hCut := List.splitOnP_append_cons (p := (· == '\n')) line (lines.flatMap (· ++ ['\n']))
      (beq_self_eq_true '\n')
    rw [List.flatMap_cons, List.append_assoc, List.singleton_append, List.splitOn, hCut, hWhole,
      ← List.splitOn, ih hLines]
    rfl

theorem readEntries_text {t : Outline} (h : t.Legible) : readEntries t.text = t.entries 0 := by
  have hChars : t.text.toList = ((t.entries 0).map lineChars).flatMap (· ++ ['\n']) := by
    rw [text_eq_linesAt, linesAt_eq_join, String.toList_join, List.flatMap_map, List.flatMap_map]
    simp only [toList_line]
  have hUnbroken : ∀ line ∈ (t.entries 0).map lineChars, '\n' ∉ line := by
    intro line hLine
    obtain ⟨entry, hEntry, rfl⟩ := List.mem_map.1 hLine
    exact newline_not_mem_lineChars (h entry hEntry)
  rw [readEntries, hChars, splitOn_flatMap_lines hUnbroken, List.dropLast_concat, List.map_map]
  have hRead : ∀ entry ∈ t.entries 0, (readLine ∘ lineChars) entry = id entry :=
    fun entry hEntry => readLine_lineChars (h entry hEntry)
  rw [List.map_congr_left hRead, List.map_id]

/-- What the text of a legible outline shows is the outline. -/
theorem ofText?_text {t : Outline} (h : t.Legible) : ofText? t.text = some t := by
  have hWhole : (t.entries 0).foldr graft [] = [(t, 0)] :=
    foldr_graft_entries t 0 (by simp [EndsAbove])
  unfold ofText?
  rw [readEntries_text h, hWhole]
  rfl

/-! ## The outlines of sources -/

theorem mem_pieces_of_mem_entries (e : Expr) (depth : Nat) :
    ∀ entry ∈ (ofExpr e).entries depth, entry.2 ∈ e.pieces := by
  induction e generalizing depth with
  | leaf text offset => simp [ofExpr_leaf, entries, forestEntries, Expr.pieces]
  | binary op lhs rhs offset ihLhs ihRhs =>
    intro entry hEntry
    simp only [ofExpr_binary, entries, forestEntries, List.append_nil, List.mem_cons,
      List.mem_append] at hEntry
    simp only [Expr.pieces, List.mem_append, List.mem_singleton]
    rcases hEntry with rfl | hLhs | hRhs
    · exact Or.inr rfl
    · exact Or.inl (Or.inl (ihLhs (depth + 1) entry hLhs))
    · exact Or.inl (Or.inr (ihRhs (depth + 1) entry hRhs))

theorem isLegible_of_isPiece {piece : String} (h : Rpn.IsPiece piece) : IsLegible piece := by
  constructor
  · intro hNewline
    rcases h with hNumeral | ⟨op, rfl⟩
    · exact absurd ((Text.isNumeral_iff.1 hNumeral).2 '\n' hNewline) (by decide)
    · cases op <;> exact absurd hNewline (by decide)
  · intro hSpace
    exact h.space_not_mem (List.mem_of_head? hSpace)

theorem legible_of_compile {source : String} {c : Compilation} (h : compile source = .ok c) :
    c.tree.Legible := by
  obtain ⟨e, hDerives, -, rfl⟩ := compile_eq_ok.1 h
  intro entry hEntry
  have hPiece := mem_pieces_of_mem_entries e 0 entry hEntry
  exact isLegible_of_isPiece ((Expr.numeric_of_source hDerives).isPiece entry.2 hPiece)

/-- **The text of an outline reads back.** It is the listing by recursion on the outline: the label
behind two spaces for each level, a line feed, and the children in order one level deeper. Outlines
with legible labels, such as those of all compiled sources, are read back from their text, so that
no two of them have the same one. -/
theorem text_reads_back (t : Outline) :
    t.text = t.linesAt 0 ∧
      (∀ depth, t.linesAt depth =
        String.ofList (List.replicate (2 * depth) ' ') ++ t.label ++ "\n" ++
          String.join (t.children.map (linesAt (depth + 1)))) ∧
      (t.Legible → ofText? t.text = some t ∧ ∀ u : Outline, u.Legible → u.text = t.text → u = t) ∧
      ∀ source c, compile source = .ok c → c.tree = t → t.Legible := by
  refine ⟨t.text_eq_linesAt, fun depth => ?_, fun hLegible => ⟨ofText?_text hLegible, ?_⟩, ?_⟩
  · have hSpaces : "".pushn ' ' (2 * depth) = String.ofList (List.replicate (2 * depth) ' ') := by
      rw [← Text.toList_pushn, String.ofList_toList]
    obtain ⟨label, children⟩ := t
    rw [linesAt, forestLinesAt_eq_join_map, line, hSpaces]
  · intro u hOther hText
    have hRead := ofText?_text hOther
    rw [hText, ofText?_text hLegible] at hRead
    exact (Option.some.inj hRead).symm
  · rintro source c hCompile rfl
    exact legible_of_compile hCompile

/-- A root whose first child has a child of its own. One label is empty, and one ends in a space. -/
def ladder : Outline := ⟨"*", [⟨"", [⟨"8", []⟩]⟩, ⟨"8 ", []⟩]⟩

/-- The same labels in the same order, of which the second child has a child. -/
def shelf : Outline := ⟨"*", [⟨"", []⟩, ⟨"8", [⟨"8 ", []⟩]⟩]⟩

/-- The two are told apart by nothing but how far their lines are indented. The outline of a source
reads back, too. -/
theorem text_reads_back_ladder :
    ladder.text = "*\n  \n    8\n  8 \n" ∧ ofText? "*\n  \n    8\n  8 \n" = some ladder ∧
      shelf.text ≠ ladder.text ∧
      ∃ c, compile "8-3" = .ok c ∧ ofText? c.tree.text = some c.tree := by
  obtain ⟨hText, -, hRead, -⟩ := text_reads_back ladder
  obtain ⟨hBack, hOnly⟩ := hRead (by decide)
  have hShown : ladder.text = "*\n  \n    8\n  8 \n" := hText.trans (by decide)
  have hTokens : Expr.ofTokens (Scan.ofSource "8-3").tokens =
      .ok (.binary .sub (.leaf "8" 0) (.leaf "3" 2) 1) := by cbv
  have hSource := compile_eq_ok.2 ⟨_, Expr.derives_of_ofTokens hTokens, by cbv, rfl⟩
  obtain ⟨-, -, hReadTree, hLegible⟩ := text_reads_back (ofExpr _)
  refine ⟨hShown, hShown ▸ hBack, fun hSame => ?_, _, hSource,
    (hReadTree (hLegible _ _ hSource rfl)).1⟩
  have hEqual : shelf = ladder := hOnly shelf (by decide) hSame
  cases hEqual

end Outline

end ReversePolish
