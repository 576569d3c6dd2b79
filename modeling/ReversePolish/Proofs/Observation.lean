import Mathlib
import ReversePolish.Proofs.Replies

/-!
# What strictness and verbosity change

Two options of a run only look on: strictness decides the exit code once everything is printed, and
verbosity adds entries to the log. What a single run logs is said once, and two runs are compared by
it.

* `Log.stageLines`: the lines of the stages, with the counts of a source.
* `Passes`: how many stages succeed on given tokens.
* `exists_passes`: the stages that are logged are those that succeed.
* `Reply.log_eq`: the log of a run is its warnings, its stages and its failure for being strict.
* `Reply.ofSource_observed`: two runs on one source with one view.
-/

namespace ReversePolish.CommandLine

namespace Level

theorem isShown_debug (verbosity : Nat) : debug.isShown verbosity = decide (verbosity ≠ 0) := by
  unfold isShown least
  split <;> simp_all [urgency]

theorem isShown_of_info {level : Level} (h : info.urgency ≤ level.urgency) (verbosity : Nat) :
    level.isShown verbosity = true := by
  have hLeast : (least verbosity).urgency ≤ info.urgency := by
    unfold least
    split <;> decide
  exact decide_eq_true (Nat.le_trans hLeast h)

end Level

namespace Log

/-- The line of a stray character. -/
def strayLine (w : Warning) : String :=
  "WARN unexpected character position=" ++ w.offset.repr ++ " character=" ++ w.char.toString

/-- The lines of the three stages: scanning, reading an expression, and writing it. -/
def stageLines (scan : Scan) (rpn : String) : List String :=
  ["DEBUG tokenized input tokens=" ++ scan.tokens.length.repr ++ " warnings=" ++
      scan.warnings.length.repr,
    "DEBUG parsed expression tokens=" ++ scan.tokens.length.repr,
    "DEBUG generated postfix len=" ++ rpn.utf8ByteSize.repr]

/-- The line of a run that fails for being strict. -/
def strictLine (warnings : List Warning) : String :=
  "INFO strict mode: failing on lex warnings warnings=" ++ warnings.length.repr

theorem render_strayCharacter (w : Warning) : (strayCharacter w).render = strayLine w := by
  unfold render strayLine
  simp [strayCharacter, Level.name, ← String.toList_inj]

theorem render_strictFailure (warnings : List Warning) :
    (strictFailure warnings).render = strictLine warnings := by
  unfold render strictLine
  simp [strictFailure, Level.name, ← String.toList_inj]

theorem map_render_stages (scan : Scan) (rpn : String) :
    [scanned scan, parsed scan.tokens, written rpn].map render = stageLines scan rpn := by
  unfold render stageLines
  simp [scanned, parsed, written, Level.name, ← String.toList_inj]

/-- Entries of one level are told apart from others together. -/
theorem filter_of_level {logs : List Log} {level : Level}
    (h : ∀ log ∈ logs, log.level = level) (p : Level → Bool) :
    (logs.filter fun log => p log.level) = if p level then logs else [] := by
  split
  · rename_i hTaken
    rw [List.filter_eq_self]
    intro log hMem
    rw [h log hMem, hTaken]
  · rename_i hLeft
    rw [List.filter_eq_nil_iff]
    intro log hMem
    rw [h log hMem]
    exact hLeft

/-- An entry that there is only because the run is verbose or strict. -/
def isAdded (log : Log) : Bool :=
  log.level == .debug ||
    (log.level == .info && log.message == "strict mode: failing on lex warnings")

end Log

/-! ## Stages -/

/-- How many of the three stages succeed on the tokens; if all of them do, they write `rpn`. -/
inductive Passes (tokens : List Token) (rpn : String) : Nat → Prop where
  | scanned {e : Error} : Expr.ofTokens tokens = .error e → Passes tokens rpn 1
  | parsed {expr : Expr} {e : Error} :
    Expr.ofTokens tokens = .ok expr → expr.toRpn = .error e → Passes tokens rpn 2
  | written {expr : Expr} :
    Expr.ofTokens tokens = .ok expr → expr.toRpn = .ok rpn → Passes tokens rpn 3

/-- The stages that are logged are those that succeed. -/
theorem exists_passes (scan : Scan) :
    ∃ n rpn, Passes scan.tokens rpn n ∧ Log.scanned scan :: Logged.progress scan.tokens =
      [Log.scanned scan, Log.parsed scan.tokens, Log.written rpn].take n := by
  cases hRead : Expr.ofTokens scan.tokens with
  | error e =>
    refine ⟨1, "", .scanned hRead, ?_⟩
    rw [Logged.progress, hRead]
    rfl
  | ok expr =>
    cases hWrite : expr.toRpn with
    | error e =>
      refine ⟨2, "", .parsed hRead hWrite, ?_⟩
      simp only [Logged.progress, hRead, hWrite]
      rfl
    | ok rpn =>
      refine ⟨3, rpn, .written hRead hWrite, ?_⟩
      simp only [Logged.progress, hRead, hWrite]
      rfl

theorem level_of_mem_progress (scan : Scan) :
    ∀ log ∈ Log.scanned scan :: Logged.progress scan.tokens, log.level = .debug := by
  obtain ⟨n, rpn, -, hProgress⟩ := exists_passes scan
  intro log h
  rw [hProgress] at h
  have hStage := List.mem_of_mem_take h
  simp only [List.mem_cons, List.not_mem_nil, or_false] at hStage
  rcases hStage with rfl | rfl | rfl <;> rfl

/-- The same options without strictness. -/
def Options.lenient (o : Options) : Options := { o with strict := false }

namespace Reply

/-! ## One run -/

/-- The lines of the log but for those that there are only because the run is verbose or strict. -/
def keptLines (r : Reply) : List String := (r.log.filter fun log => !log.isAdded).map Log.render

/-- The lines of the log that are of a given level. -/
def linesOf (level : Level) (r : Reply) : List String :=
  (r.log.filter fun log => log.level == level).map Log.render

variable {o : Options} {source : String}

/-- Strictness turns success into failure if there are warnings, and nothing else. -/
theorem exitCode_eq {o' : Options} (h : o'.strict = false) :
    (ofSource o source).exitCode =
      if o.strict = true ∧ (ofSource o' source).exitCode = 0 ∧ (Scan.ofSource source).warnings ≠ []
        then 1 else (ofSource o' source).exitCode := by
  by_cases hSource : Text.trimmed source.toList = []
  · rw [ofSource_of_blank hSource, ofSource_of_blank hSource]
    simp [failure]
  · cases hCompile : compile source with
    | error e =>
      rw [ofSource_of_error hSource hCompile, ofSource_of_error hSource hCompile]
      simp
    | ok c =>
      obtain ⟨expr, -, -, rfl⟩ := compile_eq_ok.1 hCompile
      rw [ofSource_of_ok hSource hCompile, ofSource_of_ok hSource hCompile]
      simp [h]

/-- The run is strict about warnings, and fails for nothing else. -/
def Refused (o : Options) (source : String) : Prop :=
  (ofSource o source).exitCode ≠ 0 ∧ (ofSource o.lenient source).exitCode = 0

instance (o : Options) (source : String) : Decidable (Refused o source) :=
  inferInstanceAs (Decidable (_ ∧ _))

theorem refused_iff :
    Refused o source ↔ o.strict = true ∧ (ofSource o.lenient source).exitCode = 0 ∧
      (Scan.ofSource source).warnings ≠ [] := by
  have hLenient : o.lenient.strict = false := rfl
  rw [Refused, exitCode_eq hLenient]
  split
  · rename_i h
    exact iff_of_true ⟨Nat.one_ne_zero, h.2.1⟩ h
  · rename_i h
    exact iff_of_false (fun hRefused => hRefused.1 hRefused.2) h

/-! ## The log of a run -/

/-- The entries of a level in the log of a run: a warning for each stray character, the stages that
a verbose run went through, and the failure of a run for being strict. -/
def entries (o : Options) (source : String) : Level → List Log
  | .warn => (Scan.ofSource source).warnings.map Log.strayCharacter
  | .debug =>
    if o.verbosity = 0 then []
    else Log.scanned (Scan.ofSource source) :: Logged.progress (Scan.ofSource source).tokens
  | .info =>
    if Refused o source then [Log.strictFailure (Scan.ofSource source).warnings] else []
  | .trace => []

theorem level_of_mem_entries {level : Level} :
    ∀ log ∈ entries o source level, log.level = level := by
  intro log h
  cases level with
  | warn =>
    obtain ⟨w, -, rfl⟩ := List.mem_map.1 h
    rfl
  | debug =>
    rw [entries] at h
    split at h
    · cases h
    · exact level_of_mem_progress _ log h
  | info =>
    rw [entries] at h
    split at h
    · rw [List.mem_singleton.1 h]
      rfl
    · cases h
  | trace => cases h

/-- What the stages note is shown but for their success, which takes a verbose run. -/
theorem filter_noted :
    ((Logged.noted source).filter fun log => log.level.isShown o.verbosity) =
      entries o source .warn ++ entries o source .debug := by
  have hWarn := Log.filter_of_level (@level_of_mem_entries o source .warn)
    (Level.isShown o.verbosity)
  have hDebug := Log.filter_of_level (level_of_mem_progress (Scan.ofSource source))
    (Level.isShown o.verbosity)
  rw [Level.isShown_of_info (by decide), if_pos rfl] at hWarn
  rw [Level.isShown_debug] at hDebug
  rw [Logged.noted, List.filter_append, hDebug]
  refine congrArg₂ (· ++ ·) hWarn ?_
  by_cases hVerbose : o.verbosity = 0
  · simp [entries, hVerbose]
  · simp [entries, hVerbose]

theorem log_eq (hSource : Text.trimmed source.toList ≠ []) :
    (ofSource o source).log =
      entries o source .warn ++ entries o source .debug ++ entries o source .info := by
  rw [← filter_noted]
  cases hCompile : compile source with
  | error e =>
    have hRefused : ¬ Refused o source := by
      rw [refused_iff, ofSource_of_error hSource hCompile]
      simp
    rw [ofSource_of_error hSource hCompile, entries, if_neg hRefused, List.append_nil]
  | ok c =>
    have hReply := @ofSource_of_ok o source hSource c hCompile
    obtain ⟨expr, -, -, rfl⟩ := compile_eq_ok.1 hCompile
    have hRefused : Refused o source ↔
        o.strict = true ∧ (Scan.ofSource source).warnings ≠ [] := by
      rw [refused_iff, ofSource_of_ok hSource hCompile]
      simp [Options.lenient]
    rw [hReply, List.filter_append, entries]
    simp only [hRefused]
    split
    · have hShown : (Log.strictFailure (Scan.ofSource source).warnings).level.isShown
          o.verbosity = true := Level.isShown_of_info (Nat.le_refl _) _
      rw [List.filter_singleton, hShown]
      rfl
    · rfl

theorem filter_entries (level other : Level) :
    ((entries o source level).filter fun log => log.level == other) =
      if level = other then entries o source level else [] := by
  simpa using Log.filter_of_level (@level_of_mem_entries o source level) (· == other)

theorem linesOf_eq (hSource : Text.trimmed source.toList ≠ []) (level : Level) :
    (ofSource o source).linesOf level = (entries o source level).map Log.render := by
  rw [linesOf, log_eq hSource, List.filter_append, List.filter_append, filter_entries,
    filter_entries, filter_entries]
  cases level <;> simp [entries.eq_def o source .trace]

/-- What is left without the added entries are the warnings. -/
theorem keptLines_eq_linesOf (hSource : Text.trimmed source.toList ≠ []) :
    (ofSource o source).keptLines = (ofSource o source).linesOf .warn := by
  refine congrArg (List.map Log.render) (List.filter_congr fun log h => ?_)
  rw [log_eq hSource, List.mem_append, List.mem_append] at h
  rcases h with (h | h) | h
  · simp [Log.isAdded, level_of_mem_entries log h]
  · simp [Log.isAdded, level_of_mem_entries log h]
  · rw [entries] at h
    split at h
    · rw [List.mem_singleton.1 h]
      rfl
    · cases h

theorem keptLines_eq (o : Options) (source : String) :
    (ofSource o source).keptLines =
      if Text.trimmed source.toList = [] then []
      else (Scan.ofSource source).warnings.map Log.strayLine := by
  split
  · rename_i hSource
    rw [ofSource_of_blank hSource]
    rfl
  · rename_i hSource
    rw [keptLines_eq_linesOf hSource, linesOf_eq hSource, entries, List.map_map]
    exact List.map_congr_left fun w _ => Log.render_strayCharacter w

theorem linesOf_debug_eq_nil (h : o.verbosity = 0 ∨ Text.trimmed source.toList = []) :
    (ofSource o source).linesOf .debug = [] := by
  by_cases hSource : Text.trimmed source.toList = []
  · rw [ofSource_of_blank hSource]
    rfl
  · rw [linesOf_eq hSource, entries, if_pos (h.resolve_right hSource)]
    rfl

theorem exists_linesOf_debug (hVerbose : o.verbosity ≠ 0)
    (hSource : Text.trimmed source.toList ≠ []) :
    ∃ n rpn, Passes (Scan.ofSource source).tokens rpn n ∧
      (ofSource o source).linesOf .debug = (Log.stageLines (Scan.ofSource source) rpn).take n := by
  obtain ⟨n, rpn, hPasses, hProgress⟩ := exists_passes (Scan.ofSource source)
  refine ⟨n, rpn, hPasses, ?_⟩
  rw [linesOf_eq hSource, entries, if_neg hVerbose, hProgress, List.map_take,
    Log.map_render_stages]

theorem linesOf_info_eq (o : Options) (source : String) :
    (ofSource o source).linesOf .info =
      if Refused o source then [Log.strictLine (Scan.ofSource source).warnings] else [] := by
  by_cases hSource : Text.trimmed source.toList = []
  · have hRefused : ¬ Refused o source := by
      rw [Refused, ofSource_of_blank hSource, ofSource_of_blank hSource]
      simp [failure]
    rw [ofSource_of_blank hSource, if_neg hRefused]
    rfl
  · rw [linesOf_eq hSource, entries]
    split
    · rw [List.map_singleton, Log.render_strictFailure]
    · rfl

/-- No entry follows the one of a failure for being strict. -/
theorem level_of_mem_dropLast (o : Options) (source : String) :
    ∀ log ∈ (ofSource o source).log.dropLast, log.level ≠ .info := by
  intro log h
  by_cases hSource : Text.trimmed source.toList = []
  · rw [ofSource_of_blank hSource] at h
    cases h
  · have hFront : log ∈ entries o source .warn ++ entries o source .debug := by
      rw [log_eq hSource, entries.eq_def o source .info] at h
      dsimp only at h
      split at h
      · rwa [List.dropLast_concat] at h
      · rw [List.append_nil] at h
        exact List.mem_of_mem_dropLast h
    rcases List.mem_append.1 hFront with hWarn | hDebug
    · simp [level_of_mem_entries log hWarn]
    · simp [level_of_mem_entries log hDebug]

/-! ## Two runs -/

theorem streams_eq (o : Options) (strict : Bool) (verbosity : Nat) (source : String) :
    (ofSource { o with strict := strict, verbosity := verbosity } source).stdout =
        (ofSource o source).stdout ∧
      (ofSource { o with strict := strict, verbosity := verbosity } source).stderr =
        (ofSource o source).stderr := by
  by_cases hSource : Text.trimmed source.toList = []
  · rw [ofSource_of_blank hSource, ofSource_of_blank hSource]
    exact ⟨rfl, rfl⟩
  · cases hCompile : compile source with
    | ok c =>
      rw [ofSource_of_ok hSource hCompile, ofSource_of_ok hSource hCompile]
      exact ⟨rfl, rfl⟩
    | error e =>
      rw [ofSource_of_error hSource hCompile, ofSource_of_error hSource hCompile]
      exact ⟨rfl, rfl⟩

/-- **Strictness and verbosity only look on.** Two runs on one source with one view print the same.
Strictness makes a run fail that would succeed if and only if the source has warnings. Without the
lines that they add, the logs are the same: a line for each warning, or none at all if the source is
turned away. A verbose run adds a line for each stage that succeeds. The last line of a run is about
strictness if and only if the run fails for nothing else, and no other line is. -/
theorem ofSource_observed (o : Options) (strict : Bool) (verbosity : Nat) (source : String) :
    ((ofSource { o with strict := strict, verbosity := verbosity } source).stdout =
        (ofSource o source).stdout ∧
      (ofSource { o with strict := strict, verbosity := verbosity } source).stderr =
        (ofSource o source).stderr ∧
      (ofSource { o with strict := strict, verbosity := verbosity } source).keptLines =
        (ofSource o source).keptLines) ∧
    (ofSource { o with strict := strict, verbosity := verbosity } source).exitCode =
      (if strict = true ∧ (ofSource o.lenient source).exitCode = 0 ∧
          (Scan.ofSource source).warnings ≠ [] then 1
        else (ofSource o.lenient source).exitCode) ∧
    (ofSource o source).keptLines =
      (if Text.trimmed source.toList = [] then []
        else (Scan.ofSource source).warnings.map fun w =>
          "WARN unexpected character position=" ++ w.offset.repr ++ " character=" ++
            w.char.toString) ∧
    (o.verbosity = 0 ∨ Text.trimmed source.toList = [] → (ofSource o source).linesOf .debug = []) ∧
    (o.verbosity ≠ 0 → Text.trimmed source.toList ≠ [] →
      ∃ n rpn, Passes (Scan.ofSource source).tokens rpn n ∧
        (ofSource o source).linesOf .debug = (Log.stageLines (Scan.ofSource source) rpn).take n) ∧
    (ofSource o source).linesOf .info =
      (if (ofSource o source).exitCode ≠ 0 ∧ (ofSource o.lenient source).exitCode = 0 then
        ["INFO strict mode: failing on lex warnings warnings=" ++
          (Scan.ofSource source).warnings.length.repr]
        else []) ∧
    ∀ log ∈ (ofSource o source).log.dropLast, log.level ≠ .info := by
  obtain ⟨hOut, hErr⟩ := streams_eq o strict verbosity source
  have hLenient : o.lenient.strict = false := rfl
  refine ⟨⟨hOut, hErr, ?_⟩, exitCode_eq hLenient, keptLines_eq o source, linesOf_debug_eq_nil,
    exists_linesOf_debug, linesOf_info_eq o source, level_of_mem_dropLast o source⟩
  rw [keptLines_eq, keptLines_eq]

/-- A strict and verbose run on a source with a stray character. -/
theorem ofSource_observed_stray :
    (ofSource ⟨.stdin, .rpn, true, 2⟩ "1+#2").stdout =
        (ofSource ⟨.stdin, .rpn, false, 0⟩ "1+#2").stdout ∧
      (ofSource ⟨.stdin, .rpn, true, 2⟩ "1+#2").exitCode = 1 ∧
      (ofSource ⟨.stdin, .rpn, true, 2⟩ "1+#2").keptLines =
        ["WARN unexpected character position=2 character=#"] ∧
      (ofSource ⟨.stdin, .rpn, true, 2⟩ "1+#2").linesOf .debug =
        ["DEBUG tokenized input tokens=3 warnings=1", "DEBUG parsed expression tokens=3",
          "DEBUG generated postfix len=5"] ∧
      (ofSource ⟨.stdin, .rpn, true, 2⟩ "1+#2").linesOf .info =
        ["INFO strict mode: failing on lex warnings warnings=1"] := by
  have hScan : Scan.ofSource "1+#2" =
      ⟨[⟨.number, "1", 0⟩, ⟨.operator, "+", 1⟩, ⟨.number, "2", 3⟩], [⟨'#', 2⟩]⟩ := by cbv
  have hSource : Text.trimmed "1+#2".toList ≠ [] := by decide
  have hRead : Expr.ofTokens (Scan.ofSource "1+#2").tokens =
      .ok (.binary .add (.leaf "1" 0) (.leaf "2" 3) 1) := by cbv
  have hWrite : Expr.toRpn (.binary .add (.leaf "1" 0) (.leaf "2" 3) 1) = .ok "1 2 +" := by
    rw [Expr.toRpn_eq]
    decide
  have hCompile := compile_eq_ok.2 ⟨_, Expr.derives_of_ofTokens hRead, rfl, rfl⟩
  have hLenient : ∀ o : Options, (ofSource o.lenient "1+#2").exitCode = 0 := by
    intro o
    rw [ofSource_of_ok hSource hCompile]
    rfl
  obtain ⟨⟨hOut, -, -⟩, hExit, -⟩ := ofSource_observed ⟨.stdin, .rpn, false, 0⟩ true 2 "1+#2"
  obtain ⟨-, -, hKept, -, hDebug, hInfo, -⟩ :=
    ofSource_observed ⟨.stdin, .rpn, true, 2⟩ true 2 "1+#2"
  have hFails : (ofSource ⟨.stdin, .rpn, true, 2⟩ "1+#2").exitCode = 1 := by
    rw [hLenient, hScan] at hExit
    exact hExit
  refine ⟨hOut, hFails, ?_, ?_, ?_⟩
  · rw [hKept, if_neg hSource, hScan]
    decide
  · obtain ⟨n, rpn, hPasses, hLines⟩ := hDebug (by decide) hSource
    cases hPasses with
    | scanned h =>
      rw [hRead] at h
      cases h
    | parsed h hError =>
      rw [hRead] at h
      cases h
      rw [hWrite] at hError
      cases hError
    | written h hOk =>
      rw [hRead] at h
      cases h
      rw [hWrite] at hOk
      cases hOk
      rw [hLines, hScan]
      decide
  · rw [hInfo, hFails, if_pos ⟨by decide, hLenient _⟩, hScan]
    decide

end Reply

end ReversePolish.CommandLine
