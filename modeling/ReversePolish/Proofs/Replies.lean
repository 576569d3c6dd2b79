import Mathlib
import ReversePolish.CommandLine.Reply
import ReversePolish.Proofs.Compiling
import ReversePolish.Proofs.Tiling

/-!
# Replies and compilations

A run of the command line goes through the stages of a compilation one by one and prints in between.
What it prints is nevertheless determined by the compilation as a whole.

* `Text.trimmed_eq_nil_iff`: nothing is left of a text between the white space at its ends if and
  only if all of it is white space.
* `Text.HasLines`: a text consists of given lines. The listing of the tokens and the warnings of a
  source are such texts, because no token and no stray character holds a line feed.
* `View.output`, `View.outputOfError`: what a view shows of a compilation, and of a source that has
  none.
* `Logged.run_lower`: compiling tokens with a log gives what compiling them gives, and an entry for
  each stage that succeeds (`Logged.progress`).
* `Reply.ofSource_of_ok`, `Reply.ofSource_of_error`: the whole reply to a source that compiles, and
  to one that does not.
* `Reply.ofSource_agrees_compile`: the reply to a source in terms of what it compiles to.
-/

namespace ReversePolish

namespace Text

/-! ## Trimming -/

theorem trimmed_eq_nil_iff {text : List Char} :
    trimmed text = [] ↔ ∀ c ∈ text, isWhiteSpace c = true := by
  change (text.dropWhile isWhiteSpace).rdropWhile isWhiteSpace = [] ↔ _
  rw [List.rdropWhile_eq_nil_iff, ← List.dropWhile_eq_nil_iff, List.dropWhile_idempotent,
    List.dropWhile_eq_nil_iff]

/-! ## Lines -/

/-- The text consists of the lines in order, each of them ended by a line feed and without another
one. -/
structure HasLines (text : String) (lines : List String) : Prop where
  joined : text = String.join (lines.map (· ++ "\n"))
  unbroken : ∀ line ∈ lines, '\n' ∉ line.toList

end Text

theorem Token.newline_not_mem_describe {t : Token}
    (h : (Lexeme.token t.kind t.text.toList).Proper) : '\n' ∉ t.describe.toList := by
  rw [describe, String.toList_append, String.toList_append, List.mem_append, List.mem_append]
  rintro ((hName | hColon) | hText)
  · cases hKind : t.kind <;> simp [hKind, Kind.name] at hName
  · simp at hColon
  · have hBlank : Text.isBlank '\n' = false := Lexeme.isBlank_of_mem_token h hText
    exact absurd hBlank (by decide)

theorem Warning.newline_not_mem_describe {w : Warning} (h : (Lexeme.stray w.char).Proper) :
    '\n' ∉ w.describe.toList := by
  have hChar : '\n' ≠ w.char := by
    intro hNewline
    rw [← hNewline] at h
    exact absurd h.2.2.1 (by decide)
  have hDigits : '\n' ∉ Nat.toDigits 10 w.offset := by
    intro hMem
    have hDigit := Nat.isDigit_of_mem_toDigits (by decide) (by decide) hMem
    exact absurd hDigit (by decide)
  unfold describe
  simp [hChar, hDigits]

namespace CommandLine

open Text (HasLines)

theorem hasLines_listing (source : String) :
    HasLines (listing (Scan.ofSource source).tokens)
      ((Scan.ofSource source).tokens.map Token.describe) := by
  refine ⟨by rw [listing, List.map_map]; rfl, fun line hLine => ?_⟩
  obtain ⟨t, ht, rfl⟩ := List.mem_map.1 hLine
  exact Token.newline_not_mem_describe ((Scan.tiles_ofSource source).token_fits t ht).proper

theorem hasLines_warningLines (source : String) :
    HasLines (warningLines (Scan.ofSource source).warnings)
      ((Scan.ofSource source).warnings.map fun w => "warning: " ++ w.describe) := by
  refine ⟨by rw [warningLines, List.map_map]; rfl, fun line hLine => ?_⟩
  obtain ⟨w, hw, rfl⟩ := List.mem_map.1 hLine
  have hStray := ((Scan.tiles_ofSource source).warning_fits w hw).stray
  simpa using Warning.newline_not_mem_describe hStray

/-! ## Running the stages -/

namespace Logged

theorem run_forM_note {α : Type} (f : α → Log) (items : List α) (log : List Log) :
    (forM items fun a => note (f a)).run log = ((), log ++ items.map f) := by
  induction items generalizing log with
  | nil =>
    rw [List.map_nil, List.append_nil]
    rfl
  | cons a items ih =>
    rw [List.forM_cons, List.map_cons, List.append_cons]
    exact ih (log ++ [f a])

theorem run_scan (source : String) (log : List Log) :
    (scan source).run log = (Scan.ofSource source,
      log ++ (Scan.ofSource source).warnings.map Log.strayCharacter ++
        [Log.scanned (Scan.ofSource source)]) := by
  rw [scan]
  simp only [List.forM_eq_forM, StateT.run_bind, run_forM_note]
  rfl

theorem run_stage_bind_ok {α β : Type} (a : α) (entry : α → Log)
    (f : α → ExceptT Error Logged β) (log : List Log) :
    (stage (.ok a) entry >>= f).run.run log = (f a).run.run (log ++ [entry a]) := rfl

theorem run_stage_bind_error {α β : Type} (e : Error) (entry : α → Log)
    (f : α → ExceptT Error Logged β) (log : List Log) :
    (stage (.error e) entry >>= f).run.run log = (.error e, log) := rfl

/-- What the stages behind scanning note: an entry for each of them that succeeds. -/
def progress (tokens : List Token) : List Log :=
  match Expr.ofTokens tokens with
  | .error _ => []
  | .ok expr => .parsed tokens :: (expr.toRpn.toOption.map Log.written).toList

theorem run_lower (tokens : List Token) (log : List Log) :
    (lower tokens).run.run log = (ReversePolish.lower tokens, log ++ progress tokens) := by
  rw [lower, parse, progress, ReversePolish.lower]
  cases Expr.ofTokens tokens with
  | error e =>
    rw [run_stage_bind_error, List.append_nil]
    rfl
  | ok expr =>
    rw [run_stage_bind_ok, write]
    change _ = (expr.toRpn >>= _, log ++ .parsed tokens :: (expr.toRpn.toOption.map _).toList)
    cases expr.toRpn with
    | error e =>
      rw [run_stage_bind_error]
      rfl
    | ok rpn =>
      rw [run_stage_bind_ok, List.append_assoc]
      rfl

/-- What the stages of a compilation note of its source. -/
def noted (source : String) : List Log :=
  (Scan.ofSource source).warnings.map Log.strayCharacter ++
    .scanned (Scan.ofSource source) :: progress (Scan.ofSource source).tokens

end Logged

/-! ## Replies -/

/-- What the view shows of a compilation whose tokens are listed in a given text. -/
def View.output (listed : String) (c : Compilation) : View → String
  | .tokens => listed
  | .tree => c.tree.text
  | .rpn => c.rpn ++ "\n"
  | .json => c.report ++ "\n"
  | .all => "Tokens:\n" ++ listed ++ "Parse tree:\n" ++ c.tree.text ++ "Postfix:\n" ++ c.rpn ++ "\n"

/-- What the view shows of a source whose tokens, listed in a given text, do not compile. -/
def View.outputOfError (listed : String) : View → String
  | .tokens => listed
  | .all => "Tokens:\n" ++ listed
  | .tree | .rpn | .json => ""

theorem View.opening_append_closing (c : Compilation) (view : View) :
    view.opening c.tokens ++ view.closing c = view.output (listing c.tokens) c := by
  unfold opening closing output
  cases view with
  | tokens => exact String.append_empty
  | tree => exact String.empty_append
  | rpn => exact String.empty_append
  | json => exact String.empty_append
  | all => simp only [String.append_assoc]

theorem View.opening_eq_outputOfError (tokens : List Token) (view : View) :
    view.opening tokens = view.outputOfError (listing tokens) := by
  cases view <;> rfl

section Output

variable {o : Options} {source : String}

theorem Output.run_ofSource_of_error {e : Error}
    (h : lower (Scan.ofSource source).tokens = .error e) :
    (Output.ofSource o source).run [] =
      (⟨1, o.view.opening (Scan.ofSource source).tokens,
        warningLines (Scan.ofSource source).warnings ++ errorLines source e⟩,
        Logged.noted source) := by
  rw [Output.ofSource, Logged.noted, StateT.run_bind, Logged.run_scan]
  change StateT.run (_ >>= _) _ = _
  rw [StateT.run_bind, Logged.run_lower, h, List.nil_append, List.append_assoc]
  rfl

theorem Output.run_ofSource_of_ok {l : Lowered}
    (h : lower (Scan.ofSource source).tokens = .ok l) :
    (Output.ofSource o source).run [] =
      (⟨if o.strict = true ∧ (Scan.ofSource source).warnings ≠ [] then 1 else 0,
        o.view.opening (Scan.ofSource source).tokens ++ o.view.closing
          ⟨(Scan.ofSource source).tokens, (Scan.ofSource source).warnings, l.tree, l.rpn⟩,
        warningLines (Scan.ofSource source).warnings⟩,
        Logged.noted source ++
          if o.strict = true ∧ (Scan.ofSource source).warnings ≠ [] then
            [.strictFailure (Scan.ofSource source).warnings] else []) := by
  rw [Output.ofSource, Logged.noted, StateT.run_bind, Logged.run_scan]
  change StateT.run (_ >>= _) _ = _
  rw [StateT.run_bind, Logged.run_lower, h, List.nil_append, List.append_assoc]
  by_cases hRefused : o.strict = true ∧ (Scan.ofSource source).warnings ≠ []
  · have hTest : (o.strict && !(Scan.ofSource source).warnings.isEmpty) = true := by
      simpa using hRefused
    rw [if_pos hRefused, if_pos hRefused, hTest]
    rfl
  · have hTest : (o.strict && !(Scan.ofSource source).warnings.isEmpty) = false := by
      simpa using hRefused
    rw [if_neg hRefused, if_neg hRefused, hTest, List.append_nil]
    rfl

end Output

namespace Reply

variable {o : Options} {source : String}

theorem ofSource_of_blank (h : Text.trimmed source.toList = []) :
    ofSource o source = failure "Please enter some code." := by
  rw [ofSource, h]
  rfl

theorem ofSource_of_ok (hSource : Text.trimmed source.toList ≠ []) {c : Compilation}
    (h : compile source = .ok c) :
    ofSource o source = ⟨if o.strict = true ∧ c.warnings ≠ [] then 1 else 0,
      o.view.output (listing c.tokens) c, warningLines c.warnings,
      (Logged.noted source ++
        if o.strict = true ∧ c.warnings ≠ [] then [Log.strictFailure c.warnings] else []).filter
          fun entry => entry.level.isShown o.verbosity⟩ := by
  rw [compile_eq_map_lower] at h
  obtain ⟨l, hLower, rfl⟩ := map_eq_ok.1 h
  rw [← View.opening_append_closing, ofSource, if_neg (by simpa using hSource),
    Output.run_ofSource_of_ok hLower]

theorem ofSource_of_error (hSource : Text.trimmed source.toList ≠ []) {e : Error}
    (h : compile source = .error e) :
    ofSource o source = ⟨1, o.view.outputOfError (listing (Scan.ofSource source).tokens),
      warningLines (Scan.ofSource source).warnings ++ errorLines source e,
      (Logged.noted source).filter fun entry => entry.level.isShown o.verbosity⟩ := by
  rw [← View.opening_eq_outputOfError, ofSource, if_neg (by simpa using hSource),
    Output.run_ofSource_of_error (compile_eq_error.1 h)]

/-- **Replies agree with compilations.** The reply to a source that is not blank starts on the error
stream with a line for each warning. If the source compiles, its view shows the compilation, and
the run fails only for being strict about warnings. If it does not, the error follows the warnings,
and no more than the listing of the tokens is shown. -/
theorem ofSource_agrees_compile (o : Options) {source : String}
    (hSource : Text.trimmed source.toList ≠ []) :
    ∃ warned listed,
      HasLines warned ((Scan.ofSource source).warnings.map fun w => "warning: " ++ w.describe) ∧
      HasLines listed ((Scan.ofSource source).tokens.map fun t => t.kind.name ++ ": " ++ t.text) ∧
      (∀ c, compile source = .ok c →
        c.tokens = (Scan.ofSource source).tokens ∧ c.warnings = (Scan.ofSource source).warnings ∧
        (ofSource o source).stdout = o.view.output listed c ∧
        (ofSource o source).stderr = warned ∧
        (ofSource o source).exitCode = if o.strict = true ∧ c.warnings ≠ [] then 1 else 0) ∧
      ∀ e, compile source = .error e →
        (ofSource o source).stdout = o.view.outputOfError listed ∧
        (ofSource o source).stderr =
          warned ++ (e.stage.title ++ ": " ++ e.message ++ "\n" ++ e.render source ++ "\n") ∧
        (ofSource o source).exitCode = 1 := by
  refine ⟨_, _, hasLines_warningLines source, hasLines_listing source, fun c hCompile => ?_,
    fun e hCompile => ?_⟩
  · rw [ofSource_of_ok hSource hCompile]
    obtain ⟨expr, -, -, rfl⟩ := compile_eq_ok.1 hCompile
    exact ⟨rfl, rfl, rfl, rfl, rfl⟩
  · rw [ofSource_of_error hSource hCompile]
    exact ⟨rfl, rfl, rfl⟩

/-- A run that shows everything and is strict about a stray character, and one that ends in an error
after it has listed the tokens. -/
theorem ofSource_agrees_compile_strays :
    (ofSource ⟨.stdin, .all, true, 0⟩ "8é-3").stdout =
        "Tokens:\nNUMBER: 8\nOPERATOR: -\nNUMBER: 3\n" ++
          "Parse tree:\n-\n  8\n  3\nPostfix:\n8 3 -\n" ∧
      (ofSource ⟨.stdin, .all, true, 0⟩ "8é-3").stderr =
        "warning: Unexpected character 'é' at position 1\n" ∧
      (ofSource ⟨.stdin, .all, true, 0⟩ "8é-3").exitCode = 1 ∧
      (ofSource ⟨.stdin, .tokens, false, 0⟩ "(8é").stdout = "PAREN: (\nNUMBER: 8\n" ∧
      (ofSource ⟨.stdin, .tokens, false, 0⟩ "(8é").stderr =
        "warning: Unexpected character 'é' at position 2\n" ++
          "Parsing error: Expected ')'\n'(8é'\n   ^ Expected ')'\n" := by
  have hScan : Scan.ofSource "8é-3" =
      ⟨[⟨.number, "8", 0⟩, ⟨.operator, "-", 3⟩, ⟨.number, "3", 4⟩], [⟨'é', 1⟩]⟩ := by cbv
  have hScan' : Scan.ofSource "(8é" = ⟨[⟨.paren, "(", 0⟩, ⟨.number, "8", 1⟩], [⟨'é', 2⟩]⟩ := by cbv
  have hRead : Expr.ofTokens (Scan.ofSource "8é-3").tokens =
      .ok (.binary .sub (.leaf "8" 0) (.leaf "3" 4) 3) := by cbv
  have hError : Expr.ofTokens (Scan.ofSource "(8é").tokens = .error (.missingCloseParen 2) := by cbv
  obtain ⟨warned, listed, hWarned, hListed, hOk, -⟩ :=
    @ofSource_agrees_compile ⟨.stdin, .all, true, 0⟩ "8é-3" (by decide)
  obtain ⟨-, -, hOut, hErr, hExit⟩ :=
    hOk _ (compile_eq_ok.2 ⟨_, Expr.derives_of_ofTokens hRead, rfl, rfl⟩)
  obtain ⟨warned', listed', hWarned', hListed', -, hRefused⟩ :=
    @ofSource_agrees_compile ⟨.stdin, .tokens, false, 0⟩ "(8é" (by decide)
  obtain ⟨hOut', hErr', -⟩ := hRefused _ (compile_eq_error.2 (lower_of_error hError))
  rw [hScan] at hWarned hListed hExit
  rw [hScan'] at hWarned' hListed'
  refine ⟨hOut.trans ?_, hErr.trans ?_, hExit, hOut'.trans ?_, hErr'.trans ?_⟩
  · rw [hListed.joined]
    cbv
  · rw [hWarned.joined]
    decide
  · exact hListed'.joined
  · rw [hWarned'.joined]
    decide

end Reply

end CommandLine

end ReversePolish
