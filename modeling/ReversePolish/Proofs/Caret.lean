import Mathlib.Data.List.TakeWhile
import Mathlib.Data.String.Basic
import ReversePolish.Error

/-!
# The caret

How an error is shown with its source. If it stands between two characters, the caret is put under
it by counting the characters before it, which is right as long as they are all on one line. Any
other offset is first moved back to the next place between two characters.

* `Text.isBoundary_append`, `Text.charsBefore_append`: the end of the first of two texts lies
  between two characters, and the characters before it are those of the first text.
* `Text.column`: where the place behind a text stands on its line.
* `Error.render_of_eq_append`: the text that is shown.
* `Error.column_caret_eq_iff`: whether the caret is under the error.
* `Text.isBoundary_iff_isValid`: the places between two characters are the valid positions of the
  encoded string.
* `Text.exists_cut_at`: any offset cuts a text behind the last character that ends by then. The
  place of the cut is less than four bytes back (`Text.exists_steps_down`), because no character
  takes more than four.
* `Text.charsEndingBy`: how many characters end at or before an offset.
* `Error.render_of_any_offset`: what is shown for an offset anywhere in the source or past it.
-/

namespace ReversePolish

namespace Text

/-! ## Places between characters -/

theorem isBoundary_zero (text : List Char) : isBoundary text 0 = true := by
  cases text <;> rfl

theorem isBoundary_cons {n : Nat} (h : 0 < n) (c : Char) (cs : List Char) :
    isBoundary (c :: cs) n = (decide (c.utf8Size ≤ n) && isBoundary cs (n - c.utf8Size)) := by
  cases n with
  | zero => omega
  | succ n => rfl

theorem charsBefore_zero (text : List Char) : charsBefore text 0 = 0 := by
  cases text <;> rfl

theorem charsBefore_cons {n : Nat} (h : 0 < n) (c : Char) (cs : List Char) :
    charsBefore (c :: cs) n = charsBefore cs (n - c.utf8Size) + 1 := by
  cases n with
  | zero => omega
  | succ n => rfl

theorem isBoundary_append (before after : List Char) :
    isBoundary (before ++ after) (String.utf8Len before) = true := by
  induction before with
  | nil => exact isBoundary_zero after
  | cons c cs ih =>
    have hPositive := c.utf8Size_pos
    have hRest : String.utf8Len cs + c.utf8Size - c.utf8Size = String.utf8Len cs := by omega
    rw [List.cons_append, String.utf8Len_cons, isBoundary_cons (by omega), hRest, ih, Bool.and_true,
      decide_eq_true_eq]
    omega

theorem charsBefore_append (before after : List Char) :
    charsBefore (before ++ after) (String.utf8Len before) = before.length := by
  induction before with
  | nil => exact charsBefore_zero after
  | cons c cs ih =>
    have hPositive := c.utf8Size_pos
    have hRest : String.utf8Len cs + c.utf8Size - c.utf8Size = String.utf8Len cs := by omega
    rw [List.cons_append, String.utf8Len_cons, charsBefore_cons (by omega), hRest, ih,
      List.length_cons]

theorem floorBoundary_of_isBoundary {text : List Char} {n : Nat} (h : isBoundary text n = true) :
    floorBoundary text n = n := by
  cases n with
  | zero => rfl
  | succ n => rw [floorBoundary, if_pos h]

/-! ## Columns -/

/-- The column of the place behind the text: how many characters follow its last line feed. -/
def column (text : List Char) : Nat := (text.reverse.takeWhile (· != '\n')).length

theorem bne_newline_of_not_mem {line : List Char} (h : '\n' ∉ line) :
    ∀ c ∈ line.reverse, (c != '\n') = true := by
  intro c hc
  rw [bne_iff_ne]
  rintro rfl
  exact h (List.mem_reverse.1 hc)

theorem column_append_newline (text : List Char) {line : List Char} (h : '\n' ∉ line) :
    column (text ++ '\n' :: line) = line.length := by
  rw [column, List.reverse_append, List.reverse_cons, List.append_assoc,
    List.takeWhile_append_of_pos (bne_newline_of_not_mem h)]
  simp

theorem column_eq_length_iff {text : List Char} : column text = text.length ↔ '\n' ∉ text := by
  unfold column
  constructor
  · intro hLength hMem
    have hPrefix : text.reverse.takeWhile (· != '\n') <+: text.reverse := List.takeWhile_prefix _
    have hAll := hPrefix.eq_of_length (hLength.trans List.length_reverse.symm)
    exact absurd (List.takeWhile_eq_self_iff.1 hAll '\n' (List.mem_reverse.2 hMem)) (by decide)
  · intro hNot
    rw [List.takeWhile_eq_self_iff.2 (bne_newline_of_not_mem hNot), List.length_reverse]

theorem toList_pushn (c : Char) (n : Nat) : ("".pushn c n).toList = List.replicate n c := by
  induction n with
  | zero => rfl
  | succ n ih =>
    have hPush : "".pushn c (n + 1) = ("".pushn c n).push c := rfl
    rw [hPush, String.toList_push, ih, List.replicate_succ']

end Text

namespace Error

variable {source : String} {e : Error} {before after : List Char}

theorem caretColumn_of_eq_append (hSource : source.toList = before ++ after)
    (hOffset : String.utf8Len before = e.offset) :
    caretColumn source e.offset = before.length + 1 := by
  have hWithin : String.utf8Len before ≤ source.utf8ByteSize := by
    rw [← String.utf8Len_toList, hSource, String.utf8Len_append]
    omega
  rw [caretColumn, ← hOffset, hSource, Nat.min_eq_left hWithin,
    Text.floorBoundary_of_isBoundary (Text.isBoundary_append before after), Text.charsBefore_append]

/-- What stands in front of the caret: the source in quotes, and a space for the quote and for each
character before the error. -/
def aboveCaret (source : String) (before : List Char) : String :=
  "'" ++ source ++ "'\n" ++ "".pushn ' ' (before.length + 1)

theorem render_of_eq_append (hSource : source.toList = before ++ after)
    (hOffset : String.utf8Len before = e.offset) :
    e.render source = aboveCaret source before ++ "^ " ++ e.message := by
  rw [render, caretColumn_of_eq_append hSource hOffset, aboveCaret]

theorem column_caret_eq_iff (source : String) (before : List Char) :
    Text.column (aboveCaret source before).toList = Text.column ('\'' :: before) ↔
      '\n' ∉ before := by
  have hSpaces : '\n' ∉ List.replicate (before.length + 1) ' ' := by simp
  have hAbove : (aboveCaret source before).toList =
      ('\'' :: (source.toList ++ ['\''])) ++ '\n' :: List.replicate (before.length + 1) ' ' := by
    simp [aboveCaret, Text.toList_pushn]
  have hQuote : Text.column ('\'' :: before) = before.length + 1 ↔ '\n' ∉ '\'' :: before :=
    Text.column_eq_length_iff
  rw [hAbove, Text.column_append_newline _ hSpaces, List.length_replicate, eq_comm, hQuote]
  simp

end Error

/-! ## Offsets anywhere -/

namespace Text

theorem isBoundary_iff {text : List Char} {n : Nat} :
    isBoundary text n = true ↔
      ∃ before after, text = before ++ after ∧ String.utf8Len before = n := by
  constructor
  · intro h
    fun_induction isBoundary text n with
    | case1 text => exact ⟨[], text, rfl, rfl⟩
    | case2 n => cases h
    | case3 c cs n ih =>
      obtain ⟨hFits, hRest⟩ := Bool.and_eq_true_iff.1 h
      obtain ⟨before, after, rfl, hBytes⟩ := ih hRest
      refine ⟨c :: before, after, rfl, ?_⟩
      have hLe := of_decide_eq_true hFits
      rw [String.utf8Len_cons]
      omega
  · rintro ⟨before, after, rfl, rfl⟩
    exact isBoundary_append before after

theorem isBoundary_iff_exists_append {source : String} {n : Nat} :
    isBoundary source.toList n = true ↔
      ∃ before after, source = before ++ after ∧ before.utf8ByteSize = n := by
  rw [isBoundary_iff]
  constructor
  · rintro ⟨before, after, hText, rfl⟩
    refine ⟨String.ofList before, String.ofList after, ?_, String.utf8ByteSize_ofList before⟩
    rw [← String.ofList_append, ← hText, String.ofList_toList]
  · rintro ⟨before, after, rfl, rfl⟩
    exact ⟨before.toList, after.toList, String.toList_append,
      String.utf8Len_toList before⟩

theorem isBoundary_iff_isValid {source : String} {n : Nat} :
    isBoundary source.toList n = true ↔ String.Pos.Raw.IsValid source ⟨n⟩ := by
  rw [isBoundary_iff_exists_append, String.Pos.Raw.isValid_iff_exists_append]
  simp only [String.Pos.Raw.ext_iff, String.byteIdx_rawEndPos, eq_comm]

/-- The number of characters that end at or before byte `n`. The character at index `i` ends where
the first `i + 1` characters do. -/
def charsEndingBy (text : List Char) (n : Nat) : Nat :=
  (List.range text.length).countP fun i => decide (String.utf8Len (text.take (i + 1)) ≤ n)

theorem charsEndingBy_le_length (text : List Char) (n : Nat) :
    charsEndingBy text n ≤ text.length := by
  have hLe : charsEndingBy text n ≤ (List.range text.length).length := List.countP_le_length
  rwa [List.length_range] at hLe

theorem charsEndingBy_mono (text : List Char) {m n : Nat} (h : m ≤ n) :
    charsEndingBy text m ≤ charsEndingBy text n := by
  apply List.countP_mono_left
  intro i _ hEnds
  rw [decide_eq_true_eq] at hEnds ⊢
  exact Nat.le_trans hEnds h

/-- An offset cuts a text behind the last character that ends at or before it. -/
theorem exists_cut_at (text : List Char) (n : Nat) :
    ∃ before after, text = before ++ after ∧ String.utf8Len before ≤ n ∧
      ∀ c ∈ after.head?, n < String.utf8Len before + c.utf8Size := by
  induction text generalizing n with
  | nil => exact ⟨[], [], rfl, Nat.zero_le n, by simp⟩
  | cons c cs ih =>
    by_cases hFits : c.utf8Size ≤ n
    · obtain ⟨before, after, rfl, hLe, hNext⟩ := ih (n - c.utf8Size)
      refine ⟨c :: before, after, rfl, ?_, fun d hd => ?_⟩
      · rw [String.utf8Len_cons]
        omega
      · have hLt := hNext d hd
        rw [String.utf8Len_cons]
        omega
    · refine ⟨[], c :: cs, rfl, Nat.zero_le n, ?_⟩
      rintro d ⟨⟩
      rw [String.utf8Len_nil]
      omega

section Cut

variable {before after : List Char} {n : Nat} (hLe : String.utf8Len before ≤ n)
  (hNext : ∀ c ∈ after.head?, n < String.utf8Len before + c.utf8Size)

include hNext

/-- Between the cut and the offset that it belongs to, no character ends. -/
theorem isBoundary_behind_cut {m : Nat} (hLow : String.utf8Len before < m) (hHigh : m ≤ n) :
    isBoundary (before ++ after) m = false := by
  rw [Bool.eq_false_iff]
  intro hBoundary
  obtain ⟨front, back, hText, rfl⟩ := isBoundary_iff.1 hBoundary
  rcases List.append_eq_append_iff.1 hText with ⟨more, rfl, rfl⟩ | ⟨less, rfl, -⟩
  -- A front that goes past the cut holds the next character, which ends behind `n`.
  · cases more with
    | nil => simp at hLow
    | cons c more =>
      have hLt := hNext c rfl
      simp only [String.utf8Len_append, String.utf8Len_cons] at hHigh
      omega
  · rw [String.utf8Len_append] at hLow
    omega

include hLe

theorem floorBoundary_of_cut : floorBoundary (before ++ after) n = String.utf8Len before := by
  induction n with
  | zero =>
    rw [floorBoundary]
    omega
  | succ n ih =>
    by_cases hAt : String.utf8Len before = n + 1
    · rw [← hAt]
      exact floorBoundary_of_isBoundary (isBoundary_append before after)
    · have hBelow : String.utf8Len before < n + 1 := by omega
      have hNot := isBoundary_behind_cut hNext hBelow (Nat.le_refl (n + 1))
      rw [floorBoundary, hNot]
      refine ih (by omega) fun c hc => ?_
      have hLt := hNext c hc
      omega

theorem charsEndingBy_of_cut : charsEndingBy (before ++ after) n = before.length := by
  have hFront : (List.range before.length).countP
      (fun i => decide (String.utf8Len ((before ++ after).take (i + 1)) ≤ n)) = before.length := by
    rw [List.countP_eq_length.2, List.length_range]
    intro i hi
    rw [List.take_append_of_le_length (List.mem_range.1 hi), decide_eq_true_eq]
    exact Nat.le_trans (String.utf8Len_le_of_sublist (List.take_sublist (i + 1) before)) hLe
  have hBack : (List.range after.length).countP
      (fun i => decide (String.utf8Len ((before ++ after).take (before.length + i + 1)) ≤ n)) =
        0 := by
    rw [List.countP_eq_zero]
    intro i hi
    cases after with
    | nil => cases hi
    | cons c cs =>
      have hLt := hNext c rfl
      rw [Nat.add_assoc, List.take_length_add_append, List.take_succ_cons, String.utf8Len_append,
        String.utf8Len_cons, decide_eq_true_eq]
      omega
  rw [charsEndingBy, List.length_append, List.range_add, List.countP_append, List.countP_map,
    hFront]
  exact congrArg (before.length + ·) hBack

end Cut

/-- Stepping down from an offset within the text meets a boundary after three steps at most, and
before it passes zero. -/
theorem exists_steps_down {text : List Char} {n : Nat} (h : n ≤ String.utf8Len text) :
    ∃ steps ≤ 3, steps ≤ n ∧ (∀ j < steps, isBoundary text (n - j) = false) ∧
      isBoundary text (n - steps) = true ∧ floorBoundary text n = n - steps := by
  obtain ⟨before, after, rfl, hLe, hNext⟩ := exists_cut_at text n
  have hStop : n - (n - String.utf8Len before) = String.utf8Len before := by omega
  refine ⟨n - String.utf8Len before, ?_, Nat.sub_le _ _, fun j hj => ?_, ?_, ?_⟩
  · cases after with
    | nil =>
      rw [List.append_nil] at h
      omega
    | cons c cs =>
      have hLt := hNext c rfl
      have hWidth := c.utf8Size_le_four
      omega
  · exact isBoundary_behind_cut hNext (by omega) (Nat.sub_le _ _)
  · rw [hStop]
    exact isBoundary_append before after
  · rw [hStop]
    exact floorBoundary_of_cut hLe hNext

end Text

namespace Error

/-- The offset, or the end of the source if the offset is past it. -/
def clamp (source : String) (offset : Nat) : Nat := min offset source.utf8ByteSize

/-- How many spaces stand before the caret, said by the characters alone: one for the opening quote,
and one for each character that ends at or before the offset. -/
def spaces (source : String) (offset : Nat) : Nat :=
  1 + Text.charsEndingBy source.toList (clamp source offset)

theorem caretColumn_eq_spaces (source : String) (offset : Nat) :
    caretColumn source offset = spaces source offset := by
  obtain ⟨before, after, hText, hLe, hNext⟩ :=
    Text.exists_cut_at source.toList (clamp source offset)
  rw [caretColumn, spaces, ← clamp, hText,
    Text.floorBoundary_of_cut hLe hNext, Text.charsBefore_append,
    Text.charsEndingBy_of_cut hLe hNext, Nat.add_comm]

theorem spaces_mono (source : String) {m n : Nat} (h : m ≤ n) : spaces source m ≤ spaces source n :=
  Nat.add_le_add_left (Text.charsEndingBy_mono _ (by unfold clamp; omega)) 1

/-- **Offsets anywhere.** From an offset in the source, or from its end if the offset is past it,
stepping down meets a place between two characters within three steps and before it passes zero, so
that the source is cut there into two strings. The source is shown in quotes, and below it the caret
with the message, behind a space for the quote and one for each character that ends by the offset.
The caret moves to the right with the offset, and not past the source. -/
theorem render_of_any_offset (source : String) (e : Error) :
    (∃ steps ≤ 3, steps ≤ clamp source e.offset ∧
        (∀ j < steps, ¬ String.Pos.Raw.IsValid source ⟨clamp source e.offset - j⟩) ∧
        Text.floorBoundary source.toList (clamp source e.offset) = clamp source e.offset - steps ∧
        ∃ before after, source = before ++ after ∧
          before.utf8ByteSize = clamp source e.offset - steps ∧
          Text.charsBefore source.toList (clamp source e.offset - steps) = before.length) ∧
      e.render source = "'" ++ source ++ "'\n" ++
        String.ofList (List.replicate (spaces source e.offset) ' ') ++ "^ " ++ e.message ∧
      (∀ m n, m ≤ n → spaces source m ≤ spaces source n) ∧
      1 ≤ spaces source e.offset ∧ spaces source e.offset ≤ 1 + source.length := by
  refine ⟨?_, ?_, fun m n hLe => spaces_mono source hLe, Nat.le_add_right 1 _, ?_⟩
  · have hWithin : clamp source e.offset ≤ String.utf8Len source.toList := by
      rw [String.utf8Len_toList]
      exact Nat.min_le_right _ _
    obtain ⟨steps, hThree, hLe, hBefore, hBoundary, hFloor⟩ := Text.exists_steps_down hWithin
    refine ⟨steps, hThree, hLe, fun j hj => ?_, hFloor, ?_⟩
    · rw [← Text.isBoundary_iff_isValid, hBefore j hj]
      exact Bool.false_ne_true
    · obtain ⟨before, after, hCut, hBytes⟩ := Text.isBoundary_iff_exists_append.1 hBoundary
      refine ⟨before, after, hCut, hBytes, ?_⟩
      rw [← hBytes, hCut, String.toList_append, ← String.utf8Len_toList,
        Text.charsBefore_append, String.length_toList]
  · unfold render
    rw [caretColumn_eq_spaces, ← Text.toList_pushn, String.ofList_toList]
  · exact Nat.add_le_add_left (Text.charsEndingBy_le_length _ _) 1

/-- The last byte of a character of four bytes is three steps behind its first, which is where the
caret goes. An offset past the end moves the caret to the end. -/
theorem render_of_any_offset_inside :
    Text.floorBoundary "é😀z".toList 5 = 2 ∧
      (Error.missingCloseParen 5).render "é😀z" = "'é😀z'\n  ^ Expected ')'" ∧
      spaces "é😀z" 5 ≤ spaces "é😀z" 99 ∧ spaces "é😀z" 99 = 4 := by
  obtain ⟨-, hShown, hMono, -⟩ := render_of_any_offset "é😀z" (.missingCloseParen 5)
  exact ⟨by decide, hShown.trans (by decide), hMono 5 99 (by decide), by decide⟩

end Error

end ReversePolish
