import Mathlib
import ReversePolish.Proofs.Unplaced

/-!
# Scanning texts that are put together

A text that is cut in two has the scans of its halves, the second one further on, unless the cut
goes through a number. Runs of blanks may be cut anywhere.

* `Scan.shift`: the scan of the same text further on in the source (`Scan.ofChars_add`).
* `Scan.ofChars_cons`: a character that is no digit is a lexeme for itself, whatever follows it.
* `Scan.ofChars_append`: the scan of two texts, if no number goes on from the one into the other.
* `Scan.ofSource_append`: the scan of any two sources that are put together. A number that goes on
  from the one into the other is one token in place of two.
-/

namespace ReversePolish

/-! ## Scans further on -/

/-- The token some bytes further on. -/
def Token.shift (bytes : Nat) (t : Token) : Token := t.move (· + bytes)

/-- The warning some bytes further on. -/
def Warning.shift (bytes : Nat) (w : Warning) : Warning := { w with offset := w.offset + bytes }

namespace Scan

/-- The scan some bytes further on. -/
def shift (bytes : Nat) (s : Scan) : Scan :=
  ⟨s.tokens.map (Token.shift bytes), s.warnings.map (Warning.shift bytes)⟩

theorem cons_shift (bytes offset : Nat) (l : Lexeme) (s : Scan) :
    cons (offset + bytes) l (s.shift bytes) = (cons offset l s).shift bytes := by
  cases l <;> rfl

theorem ofChars_add (bytes offset : Nat) (text : List Char) :
    ofChars (offset + bytes) text = (ofChars offset text).shift bytes := by
  fun_induction ofChars offset text with
  | case1 offset =>
    rw [ofChars]
    rfl
  | case2 offset c cs lexeme ih =>
    rw [ofChars, ← cons_shift, ← ih, Nat.add_right_comm]

/-- The tokens of a text without their offsets. -/
def unplacedTokens (text : List Char) : List Token := (ofChars 0 text).tokens.map Token.unplaced

theorem map_unplaced_shift (bytes : Nat) (s : Scan) :
    (s.shift bytes).tokens.map Token.unplaced = s.tokens.map Token.unplaced := by
  rw [shift, List.map_map]
  rfl

theorem map_unplaced_ofChars (offset : Nat) (text : List Char) :
    (ofChars offset text).tokens.map Token.unplaced = unplacedTokens text := by
  have hShift := ofChars_add offset 0 text
  rw [Nat.zero_add] at hShift
  rw [hShift, map_unplaced_shift]
  rfl

/-! ## One character at a time -/

/-- Blanks at the front are skipped, and those behind the first can be skipped for themselves. -/
theorem ofChars_dropWhile_isBlank (offset : Nat) (cs : List Char) :
    ofChars (offset + String.utf8Len (cs.takeWhile Text.isBlank)) (cs.dropWhile Text.isBlank) =
      ofChars offset cs := by
  cases cs with
  | nil => rfl
  | cons c cs =>
    by_cases hBlank : Text.isBlank c = true
    · obtain ⟨hDigit, hOperator, -⟩ := classes_of_isBlank hBlank
      have hFirst : Lexeme.first c cs =
          (.blank (c :: cs.takeWhile Text.isBlank), cs.dropWhile Text.isBlank) := by
        simp [Lexeme.first, hDigit, hOperator, hBlank]
      rw [List.takeWhile_cons_of_pos hBlank, List.dropWhile_cons_of_pos hBlank, ofChars_first,
        hFirst]
      rfl
    · rw [List.takeWhile_cons_of_neg hBlank, List.dropWhile_cons_of_neg hBlank]
      rfl

/-- A character that is no digit is a lexeme for itself, whatever follows it. -/
theorem ofChars_cons {c : Char} (h : c.isDigit = false) (offset : Nat) (cs : List Char) :
    ofChars offset (c :: cs) =
      cons offset (Lexeme.first c []).1 (ofChars (offset + c.utf8Size) cs) := by
  rw [ofChars_first]
  unfold Lexeme.first
  simp only [h]
  by_cases hOperator : isOperatorChar c = true
  · simp [hOperator, Lexeme.chars]
  · by_cases hBlank : Text.isBlank c = true
    · have hSkip := ofChars_dropWhile_isBlank (offset + c.utf8Size) cs
      rw [Nat.add_right_comm, Nat.add_assoc] at hSkip
      simpa [hOperator, hBlank, Lexeme.chars, cons] using hSkip
    · by_cases hParen : isParenChar c = true
      · simp [hOperator, hBlank, hParen, Lexeme.chars]
      · simp [hOperator, hBlank, hParen, Lexeme.chars]

/-! ## Two texts -/

instance : Append Scan := ⟨fun s s' => ⟨s.tokens ++ s'.tokens, s.warnings ++ s'.warnings⟩⟩

theorem tokens_append (s s' : Scan) : (s ++ s').tokens = s.tokens ++ s'.tokens := rfl

theorem warnings_append (s s' : Scan) : (s ++ s').warnings = s.warnings ++ s'.warnings := rfl

theorem mk_append (tokens tokens' : List Token) (warnings warnings' : List Warning) :
    (⟨tokens, warnings⟩ : Scan) ++ ⟨tokens', warnings'⟩ =
      ⟨tokens ++ tokens', warnings ++ warnings'⟩ := rfl

theorem nil_append (a : Scan) : (⟨[], []⟩ : Scan) ++ a = a := rfl

theorem append_nil (a : Scan) : a ++ (⟨[], []⟩ : Scan) = a := by
  cases a
  simp only [mk_append, List.append_nil]

theorem append_assoc (a b c : Scan) : a ++ b ++ c = a ++ (b ++ c) := by
  cases a
  cases b
  cases c
  simp only [mk_append, List.append_assoc]

theorem cons_append (offset : Nat) (l : Lexeme) (s s' : Scan) :
    cons offset l (s ++ s') = cons offset l s ++ s' := by
  cases l <;> rfl

/-- No number goes on from the end of the first text into the second. -/
def Separate (a b : List Char) : Prop :=
  ∀ c ∈ a.getLast?, ∀ d ∈ b.head?, c.isDigit = true → d.isDigit = false

theorem Separate.of_append {front a b : List Char} (h : Separate (front ++ a) b) :
    Separate a b := by
  intro c hc
  apply h
  rw [List.getLast?_append, Option.mem_def.1 hc]
  rfl

theorem separate_of_getLast {a b : List Char} (h : ∀ c ∈ a.getLast?, c.isDigit = false) :
    Separate a b := by
  intro c hc d _ hDigit
  rw [h c hc] at hDigit
  cases hDigit

theorem separate_of_head {a b : List Char} (h : ∀ d ∈ b.head?, d.isDigit = false) : Separate a b :=
  fun _ _ d hd _ => h d hd

/-- The number at the front of a text is the same with a text behind it that stands apart. -/
theorem first_append_of_isDigit {c : Char} {cs b : List Char} (hDigit : c.isDigit = true)
    (h : Separate (c :: cs) b) :
    Lexeme.first c (cs ++ b) = ((Lexeme.first c cs).1, (Lexeme.first c cs).2 ++ b) := by
  have hNumber : (Lexeme.first c cs).1 = .token .number (c :: cs.takeWhile Char.isDigit) := by
    simp [Lexeme.first, hDigit]
  have hText := Lexeme.chars_append_rest c cs
  have hEnds := Lexeme.endsBefore_first c cs
  refine Lexeme.first_eq (Lexeme.proper_first c cs) ?_ (by rw [← List.append_assoc, hText]; rfl)
  have hProper := Lexeme.proper_first c cs
  rw [hNumber] at hText hEnds hProper ⊢
  cases hRest : (Lexeme.first c cs).2 with
  | nil =>
    -- The number is the whole text, so that it stands right before the other one.
    intro d hd
    rw [hRest, List.append_nil] at hText
    have hWhole : c :: cs.takeWhile Char.isDigit = c :: cs := hText
    rw [← hWhole] at h
    obtain ⟨e, hLast⟩ := Option.isSome_iff_exists.1 (List.getLast?_isSome.2 hProper.1)
    exact h e hLast d hd (hProper.2 e (List.mem_of_getLast? hLast))
  | cons d rest =>
    rw [hRest] at hEnds
    exact hEnds

theorem ofChars_append {a b : List Char} (h : Separate a b) (offset : Nat) :
    ofChars offset (a ++ b) = ofChars offset a ++ ofChars (offset + String.utf8Len a) b := by
  match a with
  | [] =>
    rw [ofChars.eq_def offset []]
    rfl
  | c :: cs =>
    by_cases hDigit : c.isDigit = true
    · have hFirst := first_append_of_isDigit hDigit h
      have hText := Lexeme.chars_append_rest c cs
      have hRest : Separate (Lexeme.first c cs).2 b := by
        rw [← hText] at h
        exact h.of_append
      have hBytes := congrArg String.utf8Len hText
      rw [String.utf8Len_append] at hBytes
      have hLater := ofChars_append hRest (offset + String.utf8Len (Lexeme.first c cs).1.chars)
      rw [List.cons_append, ofChars_first, ofChars_first, hFirst]
      simp only [hLater, cons_append, Nat.add_assoc, hBytes]
    · rw [Bool.not_eq_true] at hDigit
      have hRest : Separate cs b := @Separate.of_append [c] cs b h
      rw [List.cons_append, ofChars_cons hDigit, ofChars_cons hDigit, ofChars_append hRest,
        cons_append, String.utf8Len_cons, Nat.add_assoc, Nat.add_comm c.utf8Size]
termination_by a.length
decreasing_by
  · exact Lexeme.length_rest_lt c cs
  · exact Nat.lt_succ_self _

theorem unplacedTokens_append {a b : List Char} (h : Separate a b) :
    unplacedTokens (a ++ b) = unplacedTokens a ++ unplacedTokens b := by
  rw [unplacedTokens, ofChars_append h, tokens_append, List.map_append, map_unplaced_ofChars,
    map_unplaced_ofChars]

/-! ## A number across the cut -/

theorem not_separate_iff {a b : List Char} :
    ¬ Separate a b ↔
      (∃ c ∈ a.getLast?, c.isDigit = true) ∧ ∃ d ∈ b.head?, d.isDigit = true := by
  simp only [Separate, not_forall, Bool.not_eq_false]
  constructor
  · rintro ⟨c, hc, d, hd, hLast, hFirst⟩
    exact ⟨⟨c, hc, hLast⟩, d, hd, hFirst⟩
  · rintro ⟨⟨c, hc, hLast⟩, d, hd, hFirst⟩
    exact ⟨c, hc, d, hd, hLast, hFirst⟩

/-- The number that a text begins with. -/
theorem exists_first_number {text : List Char} (h : ∃ d ∈ text.head?, d.isDigit = true) :
    ∃ run back, text = run ++ back ∧ (Lexeme.token .number run).Proper ∧
      ∀ c ∈ back.head?, c.isDigit = false := by
  obtain ⟨d, hd, hDigit⟩ := h
  obtain ⟨cs, rfl⟩ := List.head?_eq_some_iff.1 hd
  refine ⟨(d :: cs).takeWhile Char.isDigit, (d :: cs).dropWhile Char.isDigit,
    List.takeWhile_append_dropWhile.symm, ⟨?_, fun c hc => ?_⟩, Lexeme.head?_dropWhile _⟩
  · rw [List.takeWhile_cons_of_pos hDigit]
    exact List.cons_ne_nil _ _
  · exact List.mem_takeWhile_imp hc

/-- The number that a text ends with. -/
theorem exists_last_number {text : List Char} (h : ∃ c ∈ text.getLast?, c.isDigit = true) :
    ∃ front run, text = front ++ run ∧ (Lexeme.token .number run).Proper ∧
      ∀ c ∈ front.getLast?, c.isDigit = false := by
  rw [← List.head?_reverse] at h
  obtain ⟨run, back, hText, ⟨hSome, hDigits⟩, hBack⟩ := exists_first_number h
  refine ⟨back.reverse, run.reverse, ?_, ⟨by simpa using hSome, by simpa using hDigits⟩, ?_⟩
  · rw [← List.reverse_append, ← hText, List.reverse_reverse]
  · rw [List.getLast?_reverse]
    exact hBack

/-- The scan of a number and nothing else. -/
def number (text : List Char) (offset : Nat) : Scan :=
  ⟨[⟨.number, String.ofList text, offset⟩], []⟩

theorem ofChars_number {run : List Char} (h : (Lexeme.token .number run).Proper) (offset : Nat) :
    ofChars offset run = number run offset := by
  have hApart : Lexeme.Apart [.token .number run] := ⟨h, by simp [Lexeme.EndsBefore], trivial⟩
  have hScan := ofChars_flatMap_chars hApart offset
  rw [List.flatMap_singleton] at hScan
  exact hScan

/-- If a number goes on from one text into the other, each of them has a part of it. -/
theorem exists_number_of_not_separate {a b : List Char} (h : ¬ Separate a b) :
    ∃ before x place y after,
      ofChars 0 a = before ++ number x place ∧ ofChars 0 b = number y 0 ++ after ∧
      ofChars 0 (a ++ b) =
        before ++ (number (x ++ y) place ++ after.shift (String.utf8Len a)) := by
  obtain ⟨hLast, hFirst⟩ := not_separate_iff.1 h
  obtain ⟨front, x, rfl, hX, hFront⟩ := exists_last_number hLast
  obtain ⟨y, back, rfl, hY, hBack⟩ := exists_first_number hFirst
  have hXY : (Lexeme.token .number (x ++ y)).Proper := by
    refine ⟨by simp [hX.1], fun c hc => ?_⟩
    rcases List.mem_append.1 hc with hc | hc
    · exact hX.2 c hc
    · exact hY.2 c hc
  have hText : front ++ x ++ (y ++ back) = front ++ ((x ++ y) ++ back) := by
    simp only [List.append_assoc]
  have hBytes : String.utf8Len front + String.utf8Len (x ++ y) =
      String.utf8Len y + String.utf8Len (front ++ x) := by
    rw [String.utf8Len_append, String.utf8Len_append]
    omega
  refine ⟨ofChars 0 front, x, String.utf8Len front, y, ofChars (String.utf8Len y) back,
    ?_, ?_, ?_⟩
  · rw [ofChars_append (separate_of_getLast hFront), ofChars_number hX, Nat.zero_add]
  · rw [ofChars_append (separate_of_head hBack), ofChars_number hY, Nat.zero_add]
  · rw [hText, ofChars_append (separate_of_getLast hFront), ofChars_append (separate_of_head hBack),
      ofChars_number hXY, Nat.zero_add, hBytes, ofChars_add]

/-- **The scan of two sources.** Unless a number goes on from the first into the second, the tokens
and the warnings are those of the first and then those of the second, as many bytes further on as
the first is long. Otherwise the last token of the first source and the first token of the second
are numbers, one number stands in their place, and all else is as before. -/
theorem ofSource_append (a b : String) :
    (Separate a.toList b.toList →
        ofSource (a ++ b) = ofSource a ++ (ofSource b).shift a.utf8ByteSize) ∧
      (¬ Separate a.toList b.toList → ∃ front x place y back,
        (ofSource a).tokens = front ++ [⟨.number, x, place⟩] ∧
        (ofSource b).tokens = ⟨.number, y, 0⟩ :: back ∧
        (ofSource (a ++ b)).tokens =
          front ++ ⟨.number, x ++ y, place⟩ :: back.map (Token.shift a.utf8ByteSize) ∧
        (ofSource (a ++ b)).warnings =
          (ofSource a).warnings ++ (ofSource b).warnings.map (Warning.shift a.utf8ByteSize)) := by
  rw [← String.utf8Len_toList]
  unfold ofSource
  rw [String.toList_append]
  constructor
  · intro hSeparate
    rw [ofChars_append hSeparate, ofChars_add]
  · intro hJoined
    obtain ⟨before, x, place, y, after, hA, hB, hAll⟩ := exists_number_of_not_separate hJoined
    rw [hA, hB, hAll]
    refine ⟨before.tokens, String.ofList x, place, String.ofList y, after.tokens, rfl, rfl, ?_, ?_⟩
    · rw [← String.ofList_append]
      rfl
    · simp only [warnings_append, number, shift, List.append_nil, List.nil_append]

/-- A cut through a number, with a stray character on either side, and a cut through blanks of two
and of three bytes. -/
theorem ofSource_append_cuts :
    ofSource ("é1" ++ "2+$") =
        ⟨[⟨.number, "12", 2⟩, ⟨.operator, "+", 4⟩], [⟨'é', 0⟩, ⟨'$', 5⟩]⟩ ∧
      ofSource ("3\u00a0" ++ "\u3000-") = ⟨[⟨.number, "3", 0⟩, ⟨.operator, "-", 6⟩], []⟩ := by
  constructor
  · have hJoined : ¬ Separate "é1".toList "2+$".toList :=
      not_separate_iff.2 ⟨⟨'1', rfl, rfl⟩, '2', rfl, rfl⟩
    obtain ⟨front, x, place, y, back, hA, hB, hTokens, hWarnings⟩ :=
      (ofSource_append "é1" "2+$").2 hJoined
    have hLeft : ofSource "é1" = ⟨[⟨.number, "1", 2⟩], [⟨'é', 0⟩]⟩ := by cbv
    have hRight : ofSource "2+$" = ⟨[⟨.number, "2", 0⟩, ⟨.operator, "+", 1⟩], [⟨'$', 2⟩]⟩ := by cbv
    rw [hLeft] at hA hWarnings
    rw [hRight] at hB hWarnings
    have hSplit : [] ++ [(⟨.number, "1", 2⟩ : Token)] = front ++ [⟨.number, x, place⟩] := hA
    obtain ⟨rfl, hNumber⟩ := List.append_inj' hSplit rfl
    cases hNumber
    cases hB
    change (⟨(ofSource ("é1" ++ "2+$")).tokens, (ofSource ("é1" ++ "2+$")).warnings⟩ : Scan) = _
    rw [hTokens, hWarnings]
    rfl
  · have hSeparate : Separate "3\u00a0".toList "\u3000-".toList :=
      separate_of_head (by simp)
    rw [(ofSource_append _ _).1 hSeparate]
    cbv

end Scan

end ReversePolish
