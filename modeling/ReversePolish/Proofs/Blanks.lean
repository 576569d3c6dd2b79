import Mathlib
import ReversePolish.Proofs.Joining
import ReversePolish.Proofs.Placement
import ReversePolish.Proofs.Replies

/-!
# Sources without a token

A source of white space alone is turned away before it is scanned. White space and the blanks that a
scan skips are two sets of which neither holds the other, so that this needs a proof: nothing that
could compile is turned away, and what has no token for another reason is refused by the parser.

* `Text.isSkipped_iff`: a character belongs to no token if it is blank or of no class.
* `Scan.tokens_eq_nil_iff`: a source has no token if none of its characters belongs to one.
* `Scan.ofChars_of_isSkipped`: the warnings of such a source are its characters that are not blank.
* `Reply.stderr_eq_guard_iff`: which sources are turned away, read off the error stream.
* `Reply.ofSource_without_tokens`: the two kinds of sources without a token.
-/

namespace ReversePolish

/-! ## Characters that belong to no token -/

theorem Text.isSkipped_iff {c : Char} :
    isSkipped c = true ↔ isBlank c = true ∨ (Lexeme.stray c).Proper := by
  constructor
  · intro h
    by_cases hBlank : isBlank c = true
    · exact Or.inl hBlank
    · right
      simp only [isSkipped, Bool.not_eq_true', Bool.or_eq_false_iff] at h
      exact ⟨h.1.1, h.1.2, by simpa using hBlank, h.2⟩
  · rintro (hBlank | hStray)
    · obtain ⟨hDigit, hOperator, hParen⟩ := classes_of_isBlank hBlank
      simp [isSkipped, hDigit, hOperator, hParen]
    · exact Lexeme.isSkipped_stray hStray

/-- The white space that is not blank is NEXT LINE, and it belongs to no token either. -/
theorem Text.isBlank_of_isWhiteSpace {c : Char} (h : isWhiteSpace c = true) :
    isBlank c = !(c == nextLine) := by
  by_cases hLine : c = nextLine
  · rw [hLine]
    decide
  · by_cases hMark : c = byteOrderMark
    · rw [hMark]
      decide
    · rw [isBlank_eq_isWhiteSpace hMark hLine, h, beq_false_of_ne hLine, Bool.not_false]

theorem Text.isSkipped_of_isWhiteSpace {c : Char} (h : isWhiteSpace c = true) :
    isSkipped c = true := by
  by_cases hLine : c = nextLine
  · rw [hLine]
    decide
  · rw [isSkipped_iff, isBlank_of_isWhiteSpace h]
    simp [hLine]

namespace Scan

/-- A text of skipped characters has no token, and a warning for each of them that is not blank. -/
theorem ofChars_of_isSkipped {text : List Char} (h : ∀ c ∈ text, Text.isSkipped c = true)
    (offset : Nat) :
    (ofChars offset text).tokens = [] ∧
      (ofChars offset text).warnings.map Warning.char = text.filter fun c => !Text.isBlank c := by
  induction text generalizing offset with
  | nil =>
    rw [ofChars]
    exact ⟨rfl, rfl⟩
  | cons c cs ih =>
    obtain ⟨hSkipped, hRest⟩ := List.forall_mem_cons.1 h
    obtain ⟨hTokens, hWarnings⟩ := ih hRest (offset + c.utf8Size)
    rw [ofChars_cons (Text.isDigit_of_isSkipped hSkipped)]
    rcases Text.isSkipped_iff.1 hSkipped with hBlank | hStray
    · obtain ⟨hDigit, hOperator, -⟩ := classes_of_isBlank hBlank
      have hFirst : (Lexeme.first c []).1 = .blank [c] := by
        simp [Lexeme.first, hDigit, hOperator, hBlank]
      rw [hFirst, List.filter_cons_of_neg (by simp [hBlank])]
      exact ⟨hTokens, hWarnings⟩
    · have hFirst : (Lexeme.first c []).1 = .stray c := by
        obtain ⟨hDigit, hOperator, hBlank, hParen⟩ := hStray
        simp [Lexeme.first, hDigit, hOperator, hBlank, hParen]
      rw [hFirst, List.filter_cons_of_pos (by simp [hStray.2.2.1])]
      exact ⟨hTokens, congrArg (c :: ·) hWarnings⟩

theorem tokens_eq_nil_iff {source : String} :
    (ofSource source).tokens = [] ↔ ∀ c ∈ source.toList, Text.isSkipped c = true := by
  constructor
  · intro h
    obtain ⟨before, after, hText, hSkipped, hEnd⟩ := exists_skipped_end 0 source.toList
    have hTokens : (ofChars 0 source.toList).tokens = [] := h
    rw [hTokens, Nat.zero_add] at hEnd
    have hNil : before = [] := String.utf8Len_eq_zero.1 hEnd
    rw [hText, hNil]
    exact hSkipped
  · intro h
    exact (ofChars_of_isSkipped h 0).1

/-- In a source without a token every character that is not blank has its warning. -/
theorem mem_warnings_iff {source : String} (hTokens : (ofSource source).tokens = []) {c : Char}
    (hBlank : Text.isBlank c = false) {offset : Nat} :
    ⟨c, offset⟩ ∈ (ofSource source).warnings ↔
      ∃ before after, source.toList = before ++ c :: after ∧ String.utf8Len before = offset := by
  have hTiles := tiles_ofSource source
  constructor
  · intro h
    exact (hTiles.warning_fits _ h).stands
  · rintro ⟨before, after, hText, rfl⟩
    rcases hTiles.covered before c after hText with ⟨t, ⟨ht, -⟩, -⟩ | ⟨w, ⟨hw, hAt⟩, -⟩ | hSkip
    · rw [hTokens] at ht
      cases ht
    · have hChar := (hTiles.warning_fits w hw).char_eq hText hAt
      rw [← hChar, ← hAt]
      exact hw
    · rw [hBlank] at hSkip
      cases hSkip

end Scan

theorem compile_of_tokens_eq_nil {source : String} (h : (Scan.ofSource source).tokens = []) :
    compile source = .error (.unexpectedEnd 0) := by
  have hRead : Expr.ofTokens [] = .error (.unexpectedEnd 0) := Counter.ofTokens_error_of_run rfl
  rw [compile_eq_error, h]
  exact lower_of_error hRead

namespace CommandLine.Reply

/-! ## Sources that are turned away -/

theorem head?_warningLines_append (warnings : List Warning) {text : String}
    (h : text.toList.head? ≠ some 'E') :
    (warningLines warnings ++ text).toList.head? ≠ some 'E' := by
  unfold warningLines
  cases warnings with
  | nil => simpa using h
  | cons w ws => simp [String.join_cons]

theorem errorLines_unexpectedEnd (source : String) :
    errorLines source (.unexpectedEnd 0) =
      "Parsing error: Unexpected end of input\n" ++ "'" ++ source ++ "'\n" ++
        " ^ Unexpected end of input\n" := by
  have hRender := @Error.render_of_eq_append source (.unexpectedEnd 0) [] source.toList rfl rfl
  unfold errorLines
  rw [hRender, ← String.toList_inj]
  unfold Error.aboveCaret
  simp [Error.stage, Error.unexpectedEnd, Error.Kind.stage, Error.Stage.title, Text.toList_pushn]

theorem head?_errorLines (source : String) (e : Error) :
    (errorLines source e).toList.head? ≠ some 'E' := by
  unfold errorLines
  cases e.stage <;> simp [Error.Stage.title]

/-- A source that is not turned away gets an answer with another first letter, or an empty one. -/
theorem stderr_eq_guard_iff (o : Options) (source : String) :
    (ofSource o source).stderr = "Error: Please enter some code.\n" ↔
      Text.trimmed source.toList = [] := by
  constructor
  · intro h
    by_contra hSource
    have hHead : (ofSource o source).stderr.toList.head? = some 'E' := by
      rw [h]
      rfl
    cases hCompile : compile source with
    | ok c =>
      have hEmpty := @head?_warningLines_append c.warnings "" (by decide)
      rw [ofSource_of_ok hSource hCompile] at hHead
      rw [String.append_empty] at hEmpty
      exact hEmpty hHead
    | error e =>
      rw [ofSource_of_error hSource hCompile] at hHead
      exact head?_warningLines_append _ (head?_errorLines source e) hHead
  · intro h
    rw [ofSource_of_blank h]
    rfl

/-- **Sources without a token.** A source is turned away if and only if all of it is white space. It
then has no token, its warnings are its NEXT LINEs, and it would not compile. A source that is not
turned away and still has no token consists of blanks and characters of no class, one of them no
white space, and is refused for ending too early, with a single space before the caret. -/
theorem ofSource_without_tokens (o : Options) (source : String) :
    ((ofSource o source).stderr = "Error: Please enter some code.\n" ↔
        ∀ c ∈ source.toList, Text.isWhiteSpace c = true) ∧
      (∀ c, compile source = .ok c →
        (ofSource o source).stderr ≠ "Error: Please enter some code.\n") ∧
      ((∀ c ∈ source.toList, Text.isWhiteSpace c = true) →
        (Scan.ofSource source).tokens = [] ∧
        (Scan.ofSource source).warnings.map Warning.char = source.toList.filter (· == '\u0085') ∧
        (∀ offset, ⟨'\u0085', offset⟩ ∈ (Scan.ofSource source).warnings ↔
          ∃ before after, source.toList = before ++ '\u0085' :: after ∧
            String.utf8Len before = offset) ∧
        compile source = .error (.unexpectedEnd 0) ∧
        ofSource o source = ⟨1, "", "Error: Please enter some code.\n", []⟩) ∧
      (Text.trimmed source.toList ≠ [] → (Scan.ofSource source).tokens = [] →
        (∀ c ∈ source.toList, Text.isBlank c = true ∨ (Lexeme.stray c).Proper) ∧
        (∃ c ∈ source.toList, Text.isWhiteSpace c = false) ∧
        compile source = .error (.unexpectedEnd 0) ∧
        (ofSource o source).exitCode = 1 ∧
        (ofSource o source).stderr = warningLines (Scan.ofSource source).warnings ++
          ("Parsing error: Unexpected end of input\n" ++ "'" ++ source ++ "'\n" ++
            " ^ Unexpected end of input\n")) := by
  have hGuard := (stderr_eq_guard_iff o source).trans Text.trimmed_eq_nil_iff
  have hWhite : (∀ c ∈ source.toList, Text.isWhiteSpace c = true) →
      (Scan.ofSource source).tokens = [] := fun h =>
    Scan.tokens_eq_nil_iff.2 fun c hc => Text.isSkipped_of_isWhiteSpace (h c hc)
  refine ⟨hGuard, fun c hCompile hStderr => ?_, fun h => ⟨hWhite h, ?_, ?_, ?_, ?_⟩,
    fun hSource hTokens => ⟨?_, ?_, ?_, ?_, ?_⟩⟩
  · rw [compile_of_tokens_eq_nil (hWhite (hGuard.1 hStderr))] at hCompile
    cases hCompile
  · have hSkipped := Scan.tokens_eq_nil_iff.1 (hWhite h)
    refine (Scan.ofChars_of_isSkipped hSkipped 0).2.trans (List.filter_congr fun c hc => ?_)
    rw [Text.isBlank_of_isWhiteSpace (h c hc), Bool.not_not]
    rfl
  · intro offset
    exact Scan.mem_warnings_iff (hWhite h) (by decide)
  · exact compile_of_tokens_eq_nil (hWhite h)
  · exact ofSource_of_blank (Text.trimmed_eq_nil_iff.2 h)
  · intro c hc
    exact Text.isSkipped_iff.1 (Scan.tokens_eq_nil_iff.1 hTokens c hc)
  · rw [Ne, Text.trimmed_eq_nil_iff] at hSource
    simpa using hSource
  · exact compile_of_tokens_eq_nil hTokens
  · rw [ofSource_of_error hSource (compile_of_tokens_eq_nil hTokens)]
  · rw [ofSource_of_error hSource (compile_of_tokens_eq_nil hTokens), errorLines_unexpectedEnd]

/-- Two spaces around a NEXT LINE are turned away. With a byte order mark and a letter in their
place the source has no token either, but is refused by the parser. -/
theorem ofSource_without_tokens_marks :
    (ofSource ⟨.stdin, .all, true, 1⟩ " \u0085 ").stderr = "Error: Please enter some code.\n" ∧
      (Scan.ofSource " \u0085 ").warnings.map Warning.char = ['\u0085'] ∧
      compile " \u0085 " = .error (.unexpectedEnd 0) ∧
      (ofSource ⟨.stdin, .all, true, 1⟩ "\ufeffé").stderr =
        "warning: Unexpected character 'é' at position 3\n" ++
          "Parsing error: Unexpected end of input\n'\ufeffé'\n ^ Unexpected end of input\n" := by
  have hWhite : ∀ c ∈ " \u0085 ".toList, Text.isWhiteSpace c = true :=
    List.all_eq_true.1 (by decide)
  have hTokens : (Scan.ofSource "\ufeffé").tokens = [] := by cbv
  have hStray : (Scan.ofSource "\ufeffé").warnings = [⟨'é', 3⟩] := by cbv
  obtain ⟨hGuard, -, hTurned, -⟩ := ofSource_without_tokens ⟨.stdin, .all, true, 1⟩ " \u0085 "
  obtain ⟨-, -, -, hRefused⟩ := ofSource_without_tokens ⟨.stdin, .all, true, 1⟩ "\ufeffé"
  obtain ⟨-, -, -, -, hStderr⟩ := hRefused (by decide) hTokens
  rw [hStray] at hStderr
  exact ⟨hGuard.2 hWhite, (hTurned hWhite).2.1, (hTurned hWhite).2.2.2.1, hStderr⟩

end CommandLine.Reply

end ReversePolish
