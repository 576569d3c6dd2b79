import Mathlib
import ReversePolish.Proofs.Caret
import ReversePolish.Proofs.Joining
import ReversePolish.Proofs.Tiling

/-!
# Scanning by byte offsets

A scan takes lexemes off the front of a list of characters, where nothing can be cut in the wrong
place. Here it is a loop over the bytes of a text: it cuts the text at an offset, measures in bytes
what stands at the front of the rest, and adds that to the offset. A cut inside a character is a
fault, and so is a rest with nothing in it. Neither ever happens.

* `Text.cutAt?`: a text cut at a byte, which has to lie between two characters.
* `Scan.Loop.front?`: what stands at the front of a text, as a class and a number of bytes.
* `Scan.Loop.step`, `Scan.Loop.run`: one iteration of the loop, and some number of them.
* `Scan.Loop.Stands`: the offset lies between two characters, and what is scanned so far together
  with the scan of the rest is the scan of the text. An iteration keeps this
  (`Scan.Loop.step_of_stands`), and so does a run (`Scan.Loop.exists_run`).
* `Scan.Loop.run_safe`: every iteration gets on, and the last one gets to the end.
-/

namespace ReversePolish

/-! ## Cutting and measuring in bytes -/

namespace Text

/-- The text up to byte `n` and from there on, if the byte lies between two characters. -/
def cutAt? : List Char → Nat → Option (List Char × List Char)
  | text, 0 => some ([], text)
  | [], _ + 1 => none
  | c :: cs, n + 1 =>
    if c.utf8Size ≤ n + 1 then
      (cutAt? cs (n + 1 - c.utf8Size)).map fun halves => (c :: halves.1, halves.2)
    else none

theorem cutAt?_utf8Len (before after : List Char) :
    cutAt? (before ++ after) (String.utf8Len before) = some (before, after) := by
  induction before with
  | nil =>
    rw [List.nil_append, String.utf8Len_nil, cutAt?]
  | cons c cs ih =>
    have hPositive := c.utf8Size_pos
    obtain ⟨n, hn⟩ : ∃ n, String.utf8Len cs + c.utf8Size = n + 1 :=
      ⟨_, (Nat.succ_pred (by omega)).symm⟩
    have hRest : n + 1 - c.utf8Size = String.utf8Len cs := by omega
    rw [List.cons_append, String.utf8Len_cons, hn, cutAt?, if_pos (by omega), hRest, ih]
    rfl

theorem cutAt?_eq_some_iff {text before after : List Char} {n : Nat} :
    cutAt? text n = some (before, after) ↔ text = before ++ after ∧ String.utf8Len before = n := by
  constructor
  · intro h
    fun_induction cutAt? text n generalizing before with
    | case1 text =>
      cases h
      exact ⟨rfl, rfl⟩
    | case2 n => cases h
    | case3 c cs n hFits ih =>
      obtain ⟨⟨front, back⟩, hCut, hHalves⟩ := Option.map_eq_some_iff.1 h
      cases hHalves
      obtain ⟨rfl, hBytes⟩ := ih hCut
      refine ⟨rfl, ?_⟩
      change String.utf8Len front + c.utf8Size = n + 1
      omega
    | case4 c cs n hFits => cases h
  · rintro ⟨rfl, rfl⟩
    exact cutAt?_utf8Len before after

/-- The characters of a text whose first character starts at byte `offset`, each with the byte where
it starts. -/
def charOffsets : Nat → List Char → List (Nat × Char)
  | _, [] => []
  | offset, c :: cs => (offset, c) :: charOffsets (offset + c.utf8Size) cs

/-- Where the first character starts that is not of the class, or where the text ends if there is
none. -/
def runLength (p : Char → Bool) (text : List Char) : Nat :=
  ((charOffsets 0 text).find? fun place => !p place.2).elim (String.utf8Len text) Prod.fst

theorem find?_charOffsets (p : Char → Bool) (offset : Nat) (text : List Char) :
    ((charOffsets offset text).find? fun place => !p place.2).elim (offset + String.utf8Len text)
      Prod.fst = offset + String.utf8Len (text.takeWhile p) := by
  induction text generalizing offset with
  | nil => rfl
  | cons c cs ih =>
    rw [charOffsets, List.find?_cons]
    by_cases hClass : p c = true
    · simp only [hClass, Bool.not_true, List.takeWhile_cons_of_pos, String.utf8Len_cons,
        ← Nat.add_assoc, Nat.add_right_comm offset _ c.utf8Size]
      exact ih (offset + c.utf8Size)
    · simp [hClass]

theorem runLength_eq (p : Char → Bool) (text : List Char) :
    runLength p text = String.utf8Len (text.takeWhile p) := by
  have hFound := find?_charOffsets p 0 text
  rwa [Nat.zero_add, Nat.zero_add] at hFound

theorem runLength_cons_of_neg {p : Char → Bool} {c : Char} (h : p c = false) (cs : List Char) :
    runLength p (c :: cs) = 0 := by
  rw [runLength_eq, List.takeWhile_cons_of_neg (by simp [h]), String.utf8Len_nil]

theorem runLength_cons_of_pos {p : Char → Bool} {c : Char} (h : p c = true) (cs : List Char) :
    runLength p (c :: cs) = String.utf8Len (c :: cs.takeWhile p) := by
  rw [runLength_eq, List.takeWhile_cons_of_pos h]

end Text

theorem utf8Size_of_isOperatorChar {c : Char} (h : isOperatorChar c = true) : c.utf8Size = 1 := by
  simp only [isOperatorChar, Bool.or_eq_true, beq_iff_eq] at h
  rcases h with ((rfl | rfl) | rfl) | rfl <;> decide

theorem utf8Size_of_isParenChar {c : Char} (h : isParenChar c = true) : c.utf8Size = 1 := by
  simp only [isParenChar, Bool.or_eq_true, beq_iff_eq] at h
  rcases h with rfl | rfl <;> decide

namespace Scan

/-- Where the loop stands: the offset that it has got to, and what it has scanned so far. -/
structure Loop where
  offset : Nat
  scan : Scan

namespace Loop

/-- The loop before its first iteration. -/
def start : Loop := ⟨0, ⟨[], []⟩⟩

/-- What stands at the front of a text: its class, and its length in bytes. -/
inductive Front where
  | token (kind : Token.Kind) (length : Nat)
  | blank (length : Nat)

/-- The number of bytes at the front. -/
def Front.length : Front → Nat
  | .token _ length => length
  | .blank length => length

/-- What stands at the front of a text, none if there is nothing or a character of no class. -/
def front? (rest : List Char) : Option Front :=
  let digits := Text.runLength Char.isDigit rest
  if 0 < digits then some (.token .number digits)
  else
    match rest with
    | [] => none
    | c :: _ =>
      if isOperatorChar c then some (.token .operator 1)
      else
        let blanks := Text.runLength Text.isBlank rest
        if 0 < blanks then some (.blank blanks)
        else if isParenChar c then some (.token .paren 1)
        else none

/-- The ways in which an iteration could go wrong. -/
inductive Fault where
  /-- A text is cut inside a character or past its end. -/
  | badCut
  /-- The end is not reached, but nothing is left. -/
  | nothingLeft

/-- Cuts a text at a byte that has to lie between two characters. -/
def cut (text : List Char) (n : Nat) : Except Fault (List Char × List Char) :=
  (Text.cutAt? text n).elim (.error .badCut) .ok

/-- One iteration of the loop. -/
def step (text : List Char) (s : Loop) : Except Fault Loop := do
  let (_, rest) ← cut text s.offset
  match front? rest with
  | some (.token kind length) =>
    let (lexeme, _) ← cut rest length
    let t : Token := ⟨kind, String.ofList lexeme, s.offset⟩
    .ok ⟨s.offset + length, { s.scan with tokens := s.scan.tokens ++ [t] }⟩
  | some (.blank length) => .ok { s with offset := s.offset + length }
  | none =>
    match rest with
    | [] => .error .nothingLeft
    | c :: _ =>
      .ok ⟨s.offset + c.utf8Size, { s.scan with warnings := s.scan.warnings ++ [⟨c, s.offset⟩] }⟩

/-- The loop after `n` iterations, or after all of them if there are fewer. It goes on as long as
the offset is below the length of the text. -/
def run (text : List Char) : Nat → Except Fault Loop
  | 0 => .ok start
  | n + 1 => do
    let s ← run text n
    if s.offset < String.utf8Len text then step text s else .ok s

/-! ## One iteration -/

/-- A lexeme as the loop finds it, by its class and length. A stray character is not found. -/
def Front.ofLexeme? : Lexeme → Option Front
  | .token kind text => some (.token kind (String.utf8Len text))
  | .blank run => some (.blank (String.utf8Len run))
  | .stray _ => none

theorem front?_cons (c : Char) (cs : List Char) :
    front? (c :: cs) = Front.ofLexeme? (Lexeme.first c cs).1 := by
  have hPositive := c.utf8Size_pos
  unfold front? Lexeme.first
  by_cases hDigit : c.isDigit = true
  · have hSome : 0 < String.utf8Len (c :: cs.takeWhile Char.isDigit) := by
      rw [String.utf8Len_cons]
      omega
    simp only [Text.runLength_cons_of_pos hDigit, if_pos hSome, if_pos hDigit, Front.ofLexeme?]
  · rw [Bool.not_eq_true] at hDigit
    simp only [Text.runLength_cons_of_neg hDigit, hDigit]
    by_cases hOperator : isOperatorChar c = true
    · simp [hOperator, Front.ofLexeme?, utf8Size_of_isOperatorChar hOperator]
    · by_cases hBlank : Text.isBlank c = true
      · simp [hOperator, hBlank, Front.ofLexeme?, Text.runLength_cons_of_pos hBlank, hPositive]
      · rw [Bool.not_eq_true] at hBlank
        by_cases hParen : isParenChar c = true
        · simp [hOperator, hBlank, hParen, Front.ofLexeme?, Text.runLength_cons_of_neg hBlank,
            utf8Size_of_isParenChar hParen]
        · simp [hOperator, hBlank, hParen, Front.ofLexeme?, Text.runLength_cons_of_neg hBlank]

/-- The loop behind a lexeme. -/
def past (s : Loop) (l : Lexeme) : Loop :=
  ⟨s.offset + String.utf8Len l.chars, s.scan ++ Scan.cons s.offset l ⟨[], []⟩⟩

theorem cut_eq {text before after : List Char} {n : Nat} (hText : text = before ++ after)
    (hBytes : String.utf8Len before = n) : cut text n = .ok (before, after) := by
  rw [cut, Text.cutAt?_eq_some_iff.2 ⟨hText, hBytes⟩]
  rfl

/-- An iteration reads one lexeme, of whichever form it is. -/
theorem step_eq {text before cs : List Char} {c : Char} {s : Loop}
    (hText : text = before ++ c :: cs) (hOffset : String.utf8Len before = s.offset) :
    step text s = .ok (s.past (Lexeme.first c cs).1) := by
  obtain ⟨offset, tokens, warnings⟩ := s
  have hFront := Lexeme.chars_append_rest c cs
  unfold step
  -- Of the front lexeme, all that matters is its form and that it starts the text.
  rw [cut_eq hText hOffset]
  simp only [bind, Except.bind, front?_cons]
  generalize Lexeme.first c cs = lexeme at hFront
  obtain ⟨l, rest⟩ := lexeme
  cases l with
  | token kind chars =>
    have hCut : cut (c :: cs) (String.utf8Len chars) = .ok (chars, rest) := cut_eq hFront.symm rfl
    simp only [Front.ofLexeme?, hCut, past, Lexeme.chars, Scan.cons, mk_append, List.append_nil]
  | blank run =>
    simp only [Front.ofLexeme?, past, Lexeme.chars, Scan.cons, mk_append, List.append_nil]
  | stray d =>
    obtain ⟨rfl, -⟩ := List.cons.inj hFront
    simp only [Front.ofLexeme?, past, Lexeme.chars, Scan.cons, mk_append, List.append_nil,
      String.utf8Len_cons, String.utf8Len_nil, Nat.zero_add]

theorem utf8Len_first_pos (c : Char) (cs : List Char) :
    0 < String.utf8Len (Lexeme.first c cs).1.chars := by
  apply Nat.pos_of_ne_zero
  intro hZero
  exact Lexeme.chars_ne_nil c cs (String.utf8Len_eq_zero.1 hZero)

theorem offset_lt_past (s : Loop) (c : Char) (cs : List Char) :
    s.offset < (s.past (Lexeme.first c cs).1).offset :=
  Nat.lt_add_of_pos_right (utf8Len_first_pos c cs)

/-- The loop stands before the rest of the text: its offset is where the rest begins, and the scan
of the rest is what is missing from the scan of the text. -/
structure Stands (text : List Char) (s : Loop) (rest : List Char) : Prop where
  cut : ∃ before, text = before ++ rest ∧ String.utf8Len before = s.offset
  scan : s.scan ++ ofChars s.offset rest = ofChars 0 text

theorem stands_start (text : List Char) : Stands text start text :=
  ⟨⟨[], rfl, rfl⟩, nil_append (ofChars 0 text)⟩

theorem Stands.offset_eq {text rest : List Char} {s : Loop} (h : Stands text s rest) :
    s.offset + String.utf8Len rest = String.utf8Len text := by
  obtain ⟨before, rfl, hOffset⟩ := h.cut
  rw [String.utf8Len_append, hOffset]

theorem step_of_stands {text cs : List Char} {c : Char} {s : Loop} (h : Stands text s (c :: cs)) :
    step text s = .ok (s.past (Lexeme.first c cs).1) ∧
      Stands text (s.past (Lexeme.first c cs).1) (Lexeme.first c cs).2 := by
  obtain ⟨before, hText, hOffset⟩ := h.cut
  have hFront := Lexeme.chars_append_rest c cs
  refine ⟨step_eq hText hOffset, ⟨before ++ (Lexeme.first c cs).1.chars, ?_, ?_⟩, ?_⟩
  · rw [List.append_assoc, hFront, hText]
  · rw [String.utf8Len_append, hOffset, past]
  · rw [← h.scan, ofChars_first, past, append_assoc, ← cons_append, nil_append]

/-- After any number of iterations the loop stands somewhere in the text, with a character less to
go for each of them. -/
theorem exists_run (text : List Char) (n : Nat) :
    ∃ s rest, run text n = .ok s ∧ Stands text s rest ∧ rest.length ≤ text.length - n := by
  induction n with
  | zero => exact ⟨start, text, rfl, stands_start text, Nat.le_refl _⟩
  | succ n ih =>
    obtain ⟨s, rest, hRun, hStands, hLength⟩ := ih
    have hOffset := hStands.offset_eq
    rw [run, hRun]
    simp only [bind, Except.bind]
    cases rest with
    | nil =>
      rw [String.utf8Len_nil] at hOffset
      rw [if_neg (by omega)]
      exact ⟨s, [], rfl, hStands, Nat.zero_le _⟩
    | cons c cs =>
      have hPositive := c.utf8Size_pos
      have hShorter := Lexeme.length_rest_lt c cs
      obtain ⟨hStep, hNext⟩ := step_of_stands hStands
      rw [String.utf8Len_cons] at hOffset
      rw [List.length_cons] at hLength
      rw [if_pos (by omega), hStep]
      exact ⟨_, _, rfl, hNext, by omega⟩

theorem Front.length_of_ofLexeme? {l : Lexeme} {f : Front} (h : ofLexeme? l = some f) :
    f.length = String.utf8Len l.chars := by
  cases l with
  | token kind chars =>
    cases h
    rfl
  | blank run =>
    cases h
    rfl
  | stray c => cases h

/-- The front of a text that is not empty is cut off between two characters. -/
theorem cutAt?_of_front? {c : Char} {cs : List Char} {f : Front} (h : front? (c :: cs) = some f) :
    Text.cutAt? (c :: cs) f.length =
      some ((Lexeme.first c cs).1.chars, (Lexeme.first c cs).2) := by
  rw [front?_cons] at h
  rw [Text.cutAt?_eq_some_iff, Front.length_of_ofLexeme? h]
  exact ⟨(Lexeme.chars_append_rest c cs).symm, rfl⟩

theorem length_of_front? {c : Char} {cs : List Char} {f : Front} (h : front? (c :: cs) = some f) :
    1 ≤ f.length ∧ f.length ≤ String.utf8Len (c :: cs) ∧
      String.Pos.Raw.IsValid (String.ofList (c :: cs)) ⟨f.length⟩ ∧
      ∃ lexeme after, Text.cutAt? (c :: cs) f.length = some (lexeme, after) := by
  have hCut := cutAt?_of_front? h
  obtain ⟨hText, hBytes⟩ := Text.cutAt?_eq_some_iff.1 hCut
  have hSome := utf8Len_first_pos c cs
  have hAll := congrArg String.utf8Len hText
  rw [String.utf8Len_append] at hAll
  refine ⟨by omega, by omega, ?_, _, _, hCut⟩
  rw [← Text.isBoundary_iff_isValid, String.toList_ofList, Text.isBoundary_iff]
  exact ⟨_, _, hText, hBytes⟩

/-! ## The whole loop -/

theorem Stands.isValid {source : String} {rest : List Char} {s : Loop}
    (h : Stands source.toList s rest) : String.Pos.Raw.IsValid source ⟨s.offset⟩ := by
  obtain ⟨before, hText, hOffset⟩ := h.cut
  rw [← Text.isBoundary_iff_isValid, Text.isBoundary_iff]
  exact ⟨before, rest, hText, hOffset⟩

/-- With nothing left to go, the whole text is scanned. -/
theorem Stands.eq_of_nil {text : List Char} {s : Loop} (h : Stands text s []) :
    s = ⟨String.utf8Len text, ofChars 0 text⟩ := by
  have hOffset := h.offset_eq
  have hScan := h.scan
  rw [String.utf8Len_nil, Nat.add_zero] at hOffset
  rw [ofChars.eq_def s.offset [], append_nil] at hScan
  rw [← hOffset, ← hScan]

/-- **The loop is safe and gets on.** After any number of iterations the offset lies between two
characters of the source and not past its end. If it is below the end, so that the loop goes on, the
source is cut there and something is left. What is found at the front of that is at least one byte
long, no longer than what is left, and ends between two characters, where it is cut off. The
iteration meets no fault and moves the offset on, not past the end. After as many iterations as the
source has characters, the offset is at the end and the source is scanned. -/
theorem run_safe (source : String) :
    (∀ n, ∃ s, run source.toList n = .ok s ∧ String.Pos.Raw.IsValid source ⟨s.offset⟩ ∧
        s.offset ≤ source.utf8ByteSize ∧
        (s.offset < source.utf8ByteSize → ∃ before rest t,
          Text.cutAt? source.toList s.offset = some (before, rest) ∧ rest ≠ [] ∧
          (∀ f, front? rest = some f → 1 ≤ f.length ∧ f.length ≤ String.utf8Len rest ∧
            String.Pos.Raw.IsValid (String.ofList rest) ⟨f.length⟩ ∧
            ∃ lexeme after, Text.cutAt? rest f.length = some (lexeme, after)) ∧
          step source.toList s = .ok t ∧ run source.toList (n + 1) = .ok t ∧
          s.offset < t.offset ∧ t.offset ≤ source.utf8ByteSize)) ∧
      run source.toList source.length = .ok ⟨source.utf8ByteSize, ofSource source⟩ := by
  rw [← String.utf8Len_toList]
  constructor
  · intro n
    obtain ⟨s, rest, hRun, hStands, -⟩ := exists_run source.toList n
    have hOffset := hStands.offset_eq
    refine ⟨s, hRun, hStands.isValid, by omega, fun hBelow => ?_⟩
    cases rest with
    | nil =>
      rw [String.utf8Len_nil] at hOffset
      omega
    | cons c cs =>
      obtain ⟨before, hText, hBefore⟩ := hStands.cut
      obtain ⟨hStep, hNext⟩ := step_of_stands hStands
      have hRunNext : run source.toList (n + 1) = .ok (s.past (Lexeme.first c cs).1) := by
        rw [run, hRun, ← hStep]
        exact if_pos hBelow
      have hNextOffset := hNext.offset_eq
      exact ⟨before, c :: cs, _, Text.cutAt?_eq_some_iff.2 ⟨hText, hBefore⟩, List.cons_ne_nil c cs,
        fun f hFront => length_of_front? hFront, hStep, hRunNext, offset_lt_past s c cs, by omega⟩
  · obtain ⟨s, rest, hRun, hStands, hLength⟩ := exists_run source.toList source.length
    rw [String.length_toList, Nat.sub_self, Nat.le_zero, List.length_eq_zero_iff] at hLength
    subst hLength
    rw [hRun, hStands.eq_of_nil, ofSource]

/-- Characters of all four widths. The loop stands before the widest of them after four iterations,
and it is done after six, one less than there are characters. -/
theorem run_safe_widths :
    run "12é+\u3000😀)".toList 7 =
        .ok ⟨13, [⟨.number, "12", 0⟩, ⟨.operator, "+", 4⟩, ⟨.paren, ")", 12⟩],
          [⟨'é', 2⟩, ⟨'😀', 8⟩]⟩ ∧
      ∃ s t, run "12é+\u3000😀)".toList 4 = .ok s ∧ s.offset = 8 ∧
        String.Pos.Raw.IsValid "12é+\u3000😀)" ⟨s.offset⟩ ∧
        step "12é+\u3000😀)".toList s = .ok t ∧ s.offset < t.offset := by
  obtain ⟨hHeads, hEnd⟩ := run_safe "12é+\u3000😀)"
  have hScan : ofSource "12é+\u3000😀)" =
      ⟨[⟨.number, "12", 0⟩, ⟨.operator, "+", 4⟩, ⟨.paren, ")", 12⟩], [⟨'é', 2⟩, ⟨'😀', 8⟩]⟩ := by cbv
  obtain ⟨s, hRun, hValid, -, hGoesOn⟩ := hHeads 4
  have hFour : run "12é+\u3000😀)".toList 4 =
      .ok ⟨8, [⟨.number, "12", 0⟩, ⟨.operator, "+", 4⟩], [⟨'é', 2⟩]⟩ := by cbv
  cases hFour.symm.trans hRun
  obtain ⟨-, -, t, -, -, -, hStep, -, hLt, -⟩ := hGoesOn (by decide)
  refine ⟨?_, _, t, hRun, rfl, hValid, hStep, hLt⟩
  rw [hScan] at hEnd
  exact hEnd

end Loop

end Scan

end ReversePolish
