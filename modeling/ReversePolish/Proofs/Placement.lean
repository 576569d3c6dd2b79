import Mathlib
import ReversePolish.Proofs.Caret
import ReversePolish.Proofs.Tiling
import ReversePolish.Proofs.Unplaced
import ReversePolish.Proofs.Viability
import ReversePolish.Proofs.ZeroDivision

/-!
# Where errors stand in their source

Offsets go from the scan through the tokens and the nodes of expressions into errors. On the way
they stay places between two characters of the source, and none of the sums that make them passes
the greatest offset unless the source does.

* `Scan.stops`: the offsets that scanning computes, one for each lexeme.
* `Scan.exists_skipped_end`: what is left of a source behind its last token belongs to no token.
* `Error.AtEnd`: the error was raised because there were no more tokens.
* `lower_error_cases`: every other error is raised at a token, a division by zero at its operator.
* `Error.Marks`: the part of the source in front of an error and the part behind it.
* `marks_of_compile_error`: every error of a source has these two parts, so that it is shown as it
  stands.
-/

namespace ReversePolish

/-! ## The offsets of a scan -/

namespace Scan

/-- Where the lexemes of a text end whose first character stands at byte `offset`. Scanning goes on
from each of them. -/
def stops (offset : Nat) : List Char → List Nat
  | [] => []
  | c :: cs =>
    let stop := offset + String.utf8Len (Lexeme.first c cs).1.chars
    stop :: stops stop (Lexeme.first c cs).2
termination_by text => text.length
decreasing_by exact Lexeme.length_rest_lt c cs

theorem stop_le {offset stop : Nat} {text : List Char} (h : stop ∈ stops offset text) :
    stop ≤ offset + String.utf8Len text := by
  fun_induction stops offset text with
  | case1 => cases h
  | case2 offset c cs next ih =>
    have hAll := congrArg String.utf8Len (Lexeme.chars_append_rest c cs)
    rw [String.utf8Len_append] at hAll
    have hNext : next + String.utf8Len (Lexeme.first c cs).2 =
        offset + String.utf8Len (c :: cs) := by
      rw [← hAll, ← Nat.add_assoc]
    rcases List.mem_cons.1 h with rfl | h
    · omega
    · rw [← hNext]
      exact ih h

theorem end_mem_stops {offset : Nat} {text : List Char} {t : Token}
    (h : t ∈ (ofChars offset text).tokens) :
    t.offset + t.text.utf8ByteSize ∈ stops offset text := by
  fun_induction ofChars offset text with
  | case1 => cases h
  | case2 offset c cs lexeme ih =>
    rw [String.utf8ByteSize_ofList] at ih h
    rw [stops]
    change _ ∈ (offset + String.utf8Len lexeme.chars) ::
      stops (offset + String.utf8Len lexeme.chars) (Lexeme.first c cs).2
    generalize lexeme = l at h ih ⊢
    cases l with
    | token kind text =>
      rcases List.mem_cons.1 h with rfl | h
      · simp [Lexeme.chars, String.utf8ByteSize_ofList]
      · exact List.mem_cons_of_mem _ (ih h)
    | blank run => exact List.mem_cons_of_mem _ (ih h)
    | stray d => exact List.mem_cons_of_mem _ (ih h)

theorem getLast?_tokens_cons (offset : Nat) (l : Lexeme) (s : Scan) :
    (cons offset l s).tokens.getLast? =
      s.tokens.getLast?.or (cons offset l ⟨[], []⟩).tokens.head? := by
  cases l with
  | token kind text => simp [cons, List.getLast?_cons]
  | blank run => simp [cons]
  | stray c => simp [cons]

/-- Behind the last token of a text there is nothing but characters that belong to no token. -/
theorem exists_skipped_end (offset : Nat) (text : List Char) :
    ∃ before after, text = before ++ after ∧ (∀ c ∈ after, Text.isSkipped c = true) ∧
      offset + String.utf8Len before =
        (ofChars offset text).tokens.getLast?.elim offset fun t =>
          t.offset + t.text.utf8ByteSize := by
  fun_induction ofChars offset text with
  | case1 => exact ⟨[], [], rfl, by simp, rfl⟩
  | case2 offset c cs lexeme ih =>
    rw [String.utf8ByteSize_ofList] at ih
    obtain ⟨before, after, hRest, hSkipped, hEnd⟩ := ih
    have hProper : lexeme.Proper := Lexeme.proper_first c cs
    have hAll : c :: cs = lexeme.chars ++ (before ++ after) := by
      rw [← hRest]
      exact (Lexeme.chars_append_rest c cs).symm
    rw [hAll, getLast?_tokens_cons, String.utf8ByteSize_ofList]
    cases hLast : (ofChars (offset + String.utf8Len lexeme.chars)
        (Lexeme.first c cs).2).tokens.getLast? with
    | some t =>
      rw [hLast] at hEnd
      refine ⟨lexeme.chars ++ before, after, by simp, hSkipped, ?_⟩
      rw [String.utf8Len_append, ← Nat.add_assoc]
      exact hEnd
    | none =>
      -- The text behind the lexeme has no token, so all of it is skipped.
      rw [hLast] at hEnd
      have hNil : before = [] := String.utf8Len_eq_zero.1 (Nat.add_eq_left.1 hEnd)
      subst hNil
      rw [List.nil_append]
      generalize lexeme = l at hProper ⊢
      cases l with
      | token kind text =>
        refine ⟨text, after, rfl, hSkipped, ?_⟩
        simp [cons, String.utf8ByteSize_ofList]
      | blank run =>
        refine ⟨[], run ++ after, rfl, fun d hd => ?_, rfl⟩
        rcases List.mem_append.1 hd with hd | hd
        · exact Lexeme.isSkipped_of_mem_blank hProper hd
        · exact hSkipped d hd
      | stray d =>
        have hStray := Lexeme.isSkipped_stray hProper
        exact ⟨[], d :: after, rfl, List.forall_mem_cons.2 ⟨hStray, hSkipped⟩, rfl⟩

end Scan

/-! ## The place of an error among the tokens -/

namespace Error

/-- The error was raised where the tokens end: it goes wherever their end is said to be. -/
def RaisedAtEnd (tokens : List Token) (e : Error) : Prop :=
  ∀ eof, Expr.sum eof tokens = .error { e with offset := eof }

/-- The error was raised because there were no more tokens. -/
def AtEnd (tokens : List Token) (e : Error) : Prop :=
  e.kind = .unexpectedEnd ∨ e.kind = .missingCloseParen ∧ e.RaisedAtEnd tokens

end Error

namespace Counter

theorem sum_error_of_run {eof : Nat} {tokens : List Token} {err : Error}
    (h : run eof start tokens = .error err) (hKind : err.kind ≠ .trailingTokens) :
    Expr.sum eof tokens = .error err := by
  cases hSum : Expr.sum eof tokens with
  | error err' =>
    rw [run_of_sum_error hSum] at h
    rw [Except.error.inj h]
  | ok p =>
    have hStops : Rank.sum.StopsAt p.rest.head? := Expr.stopsAt_of_rule hSum
    rw [run_of_sum_ok hSum] at h
    cases hRest : p.rest with
    | nil =>
      rw [hRest] at h
      cases h
    | cons t rest =>
      rw [hRest] at h hStops
      rw [run_trailing hStops] at h
      cases h
      exact absurd rfl hKind

theorem atEnd_of_finish_error {tokens : List Token} {c : Counter} {eof : Nat} {err : Error}
    (hSteps : tokens.foldlM step start = .ok c) (hFinish : finish eof c = .error err) :
    err.AtEnd tokens := by
  rcases finish_error_cases hFinish with rfl | rfl
  · exact Or.inl rfl
  · refine Or.inr ⟨rfl, fun other => ?_⟩
    have hMoved := finish_move (fun _ => other) eof c
    rw [hFinish] at hMoved
    refine sum_error_of_run ?_ (by simp [Error.missingCloseParen])
    rw [run, hSteps]
    exact hMoved

theorem not_atEnd_of_foldlM_error {tokens : List Token} {err : Error}
    (h : tokens.foldlM step start = .error err) : ¬ err.AtEnd tokens := by
  rintro (hKind | ⟨-, hRaised⟩)
  · obtain ⟨-, t, -, next, -, -, hStep⟩ := exists_step_error h
    rcases step_error_cases hStep with rfl | rfl | rfl <;> cases hKind
  · have hRun := run_of_sum_error (hRaised (err.offset + 1))
    rw [run, h] at hRun
    have hOffset := congrArg Error.offset (Except.error.inj hRun)
    simp at hOffset

end Counter

/-- An error of tokens is raised at one of them, or because there are no more of them. -/
theorem lower_error_cases {tokens : List Token} {e : Error} (h : lower tokens = .error e) :
    (∃ t ∈ tokens, t.offset = e.offset ∧ ¬ e.AtEnd tokens ∧
        (e.kind = .divisionByZero → t.isOperator "/" = true)) ∨
      e.AtEnd tokens ∧ e.offset = Token.endOfAll tokens ∧ e.kind ≠ .divisionByZero := by
  cases hRead : Expr.ofTokens tokens with
  | ok a =>
    rcases lower_cases (Expr.derives_of_ofTokens hRead) with
      ⟨⟨l, hLower⟩, -⟩ | ⟨i, t, hGet, ⟨u, hGet', hSlash, -⟩, -, hLower⟩
    · rw [hLower] at h
      cases h
    · rw [hLower] at h
      cases h
      rw [hGet] at hGet'
      cases hGet'
      exact Or.inl ⟨t, List.mem_of_getElem? hGet, rfl, by simp [Error.AtEnd, Error.divisionByZero],
        fun _ => hSlash⟩
  | error err =>
    rw [lower_of_error hRead] at h
    cases h
    have hStage := Expr.stage_of_ofTokens hRead
    have hNoDivision : e.kind ≠ .divisionByZero := by
      intro hKind
      rw [Error.stage, hKind] at hStage
      cases hStage
    have hRun := Counter.run_of_ofTokens_error hRead
    rw [Counter.run] at hRun
    cases hSteps : tokens.foldlM Counter.step Counter.start with
    | error err' =>
      rw [hSteps] at hRun
      cases hRun
      obtain ⟨l, t, r, next, rfl, -, hStep⟩ := Counter.exists_step_error hSteps
      exact Or.inl ⟨t, by simp, (Counter.offset_of_step_error hStep).symm,
        Counter.not_atEnd_of_foldlM_error hSteps, fun hKind => absurd hKind hNoDivision⟩
    | ok c =>
      rw [hSteps] at hRun
      exact Or.inr ⟨Counter.atEnd_of_finish_error hSteps hRun, Counter.offset_of_finish_error hRun,
        hNoDivision⟩

/-! ## The place of an error in its source -/

theorem Text.length_le_utf8Len (cs : List Char) : cs.length ≤ String.utf8Len cs := by
  induction cs with
  | nil => exact Nat.le_refl 0
  | cons c cs ih =>
    have hPositive := c.utf8Size_pos
    rw [List.length_cons, String.utf8Len_cons]
    omega

/-- The error stands in the source between `before` and `after`: in front of the division sign that
it is about, behind the last token with no token to come, or in front of a token. -/
structure Error.Marks (source : String) (before after : List Char) (e : Error) : Prop where
  cut : source.toList = before ++ after
  offset : String.utf8Len before = e.offset
  division : e.kind = .divisionByZero → after.head? = some '/'
  atEnd : e.AtEnd (Scan.ofSource source).tokens →
    (e.offset = (Scan.ofSource source).tokens.getLast?.elim 0 fun t =>
      t.offset + t.text.utf8ByteSize) ∧ ∀ c ∈ after, Text.isSkipped c = true
  atToken : e.stage = .parsing → ¬ e.AtEnd (Scan.ofSource source).tokens →
    ∃ t ∈ (Scan.ofSource source).tokens, t.offset = e.offset

theorem Error.exists_marks_of_token {source : String} {e : Error} {t : Token}
    (ht : t ∈ (Scan.ofSource source).tokens) (hOffset : t.offset = e.offset)
    (hNotAtEnd : ¬ e.AtEnd (Scan.ofSource source).tokens)
    (hDivision : e.kind = .divisionByZero → t.isOperator "/" = true) :
    ∃ before after, e.Marks source before after := by
  have hFits := (Scan.tiles_ofSource source).token_fits t ht
  obtain ⟨before, after, hText, hBefore, -⟩ := hFits.stands
  refine ⟨before, t.text.toList ++ after, hText, hBefore.trans hOffset, fun hKind => ?_,
    fun hAtEnd => absurd hAtEnd hNotAtEnd, fun _ _ => ⟨t, ht, hOffset⟩⟩
  rw [(Token.isOperator_iff.1 (hDivision hKind)).2]
  rfl

theorem Error.exists_marks_of_atEnd {source : String} {e : Error}
    (hAtEnd : e.AtEnd (Scan.ofSource source).tokens) (hKind : e.kind ≠ .divisionByZero)
    (hOffset : e.offset = (Scan.ofSource source).tokens.getLast?.elim 0 fun t =>
      t.offset + t.text.utf8ByteSize) :
    ∃ before after, e.Marks source before after := by
  obtain ⟨before, after, hText, hSkipped, hEnd⟩ := Scan.exists_skipped_end 0 source.toList
  rw [Nat.zero_add] at hEnd
  exact ⟨before, after, hText, hEnd.trans hOffset.symm, fun hDivision => absurd hDivision hKind,
    fun _ => ⟨hOffset, hSkipped⟩, fun _ hNot => absurd hAtEnd hNot⟩

/-- **Errors stand in their source.** In a source that does not pass the greatest offset no offset
does, and an error is in front of the character that it is about, or behind the last token if there
is no such character. The caret follows a space for the quote and one for each character before the
error; it is under the error if and only if none of these characters is a line feed. -/
theorem marks_of_compile_error {source : String} {e : Error}
    (hSize : source.utf8ByteSize < Text.offsetLimit) (h : compile source = .error e) :
    (∀ stop ∈ Scan.stops 0 source.toList, stop < Text.offsetLimit) ∧
      (∀ t ∈ (Scan.ofSource source).tokens,
        t.offset + t.text.utf8ByteSize < Text.offsetLimit) ∧
      e.offset ≤ source.utf8ByteSize ∧ Text.isBoundary source.toList e.offset = true ∧
      Text.floorBoundary source.toList (min e.offset source.utf8ByteSize) = e.offset ∧
      ∃ before after, e.Marks source before after ∧
        before.length ≤ source.utf8ByteSize ∧
        e.render source = Error.aboveCaret source before ++ "^ " ++ e.message ∧
        (Text.column (Error.aboveCaret source before).toList = Text.column ('\'' :: before) ↔
          '\n' ∉ before) := by
  have hStops : ∀ stop ∈ Scan.stops 0 source.toList, stop < Text.offsetLimit := by
    intro stop hStop
    have hLe := Scan.stop_le hStop
    rw [String.utf8Len_toList] at hLe
    omega
  have hEnds : ∀ t ∈ (Scan.ofSource source).tokens,
      t.offset + t.text.utf8ByteSize < Text.offsetLimit :=
    fun t ht => hStops _ (Scan.end_mem_stops ht)
  have hMarks : ∃ before after, e.Marks source before after := by
    rcases lower_error_cases (compile_eq_error.1 h) with
      ⟨t, ht, hOffset, hNotAtEnd, hDivision⟩ | ⟨hAtEnd, hOffset, hKind⟩
    · exact Error.exists_marks_of_token ht hOffset hNotAtEnd hDivision
    · rw [Token.endOfAll_eq fun t ht => hEnds t (List.mem_of_getLast? ht)] at hOffset
      exact Error.exists_marks_of_atEnd hAtEnd hKind hOffset
  obtain ⟨before, after, hAll⟩ := hMarks
  have hBoundary : Text.isBoundary source.toList e.offset = true := by
    rw [hAll.cut, ← hAll.offset]
    exact Text.isBoundary_append before after
  have hWithin : e.offset ≤ source.utf8ByteSize := by
    rw [← String.utf8Len_toList, hAll.cut, String.utf8Len_append, hAll.offset]
    omega
  have hLength : before.length ≤ e.offset := by
    rw [← hAll.offset]
    exact Text.length_le_utf8Len before
  refine ⟨hStops, hEnds, hWithin, hBoundary, ?_, before, after, hAll, by omega,
    Error.render_of_eq_append hAll.cut hAll.offset, Error.column_caret_eq_iff source before⟩
  rw [Nat.min_eq_left hWithin, Text.floorBoundary_of_isBoundary hBoundary]

/-- A parenthesis that is not closed on the second line, with a character of two bytes before the
error and a stray one behind it. -/
theorem marks_of_compile_error_lines :
    compile "1 +\n(é2 x" = .error (.missingCloseParen 8) ∧
      (Error.missingCloseParen 8).render "1 +\n(é2 x" = "'1 +\n(é2 x'\n        ^ Expected ')'" ∧
      ∃ before after, (Error.missingCloseParen 8).Marks "1 +\n(é2 x" before after := by
  have hRead : Expr.ofTokens (Scan.ofSource "1 +\n(é2 x").tokens =
      .error (.missingCloseParen 8) := by cbv
  have hError := compile_eq_error.2 (lower_of_error hRead)
  obtain ⟨-, -, -, -, -, before, after, hMarks, -⟩ :=
    marks_of_compile_error (by decide) hError
  exact ⟨hError, by decide, before, after, hMarks⟩

end ReversePolish
