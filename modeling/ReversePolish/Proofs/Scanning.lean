import Mathlib.Data.String.Basic
import ReversePolish.Scan
import ReversePolish.Text.Decimal

/-!
# Lexemes and scans

Which lexemes there are, said without the order in which the classes are tried, and what a scan
makes of them.

* `Lexeme.Proper`: what a lexeme of each form consists of. `Lexeme.EndsBefore`: the text after a
  lexeme does not go on with its run.
* `Lexeme.proper_first`, `Lexeme.endsBefore_first`: the front lexeme is of its form and as long as
  it can be.
* `Lexeme.first_eq`: no other lexeme is. Together they fix the front lexeme of every text.
* `Scan.ofLexemes`: the scan of a text that is given as lexemes. `Scan.ofChars_flatMap_chars`:
  scanning finds lexemes that stand apart again, just as they were put together.
* `Scan.isNumeral_of_mem`: the numbers of a scan are numerals.
-/

namespace ReversePolish

/-! ## The classes of characters -/

theorem isDigit_of_isOperatorChar {c : Char} (h : isOperatorChar c = true) :
    c.isDigit = false := by
  simp only [isOperatorChar, Bool.or_eq_true, beq_iff_eq] at h
  rcases h with ((rfl | rfl) | rfl) | rfl <;> rfl

theorem isBlank_of_isDigit {c : Char} (h : c.isDigit = true) : Text.isBlank c = false := by
  obtain ⟨hLow, hHigh⟩ : 48 ≤ c.toNat ∧ c.toNat ≤ 57 := Text.isDigit_iff.1 h
  have hMark : c ≠ Text.byteOrderMark := by
    rintro rfl
    exact absurd hHigh (by decide)
  have hWhite : Text.isWhiteSpace c = false := by
    simp only [Text.isWhiteSpace, Text.whiteSpaceRanges, List.any_eq_false, List.mem_cons,
      List.not_mem_nil, or_false, decide_eq_true_eq]
    rintro range (rfl | rfl | rfl | rfl | rfl | rfl | rfl | rfl | rfl | rfl) <;> omega
  simp [Text.isBlank, hMark, hWhite]

theorem isBlank_of_isOperatorChar {c : Char} (h : isOperatorChar c = true) :
    Text.isBlank c = false := by
  simp only [isOperatorChar, Bool.or_eq_true, beq_iff_eq] at h
  rcases h with ((rfl | rfl) | rfl) | rfl <;> decide

/-- A parenthesis is of no other class. -/
theorem classes_of_isParenChar {c : Char} (h : isParenChar c = true) :
    c.isDigit = false ∧ isOperatorChar c = false ∧ Text.isBlank c = false := by
  simp only [isParenChar, Bool.or_eq_true, beq_iff_eq] at h
  rcases h with rfl | rfl <;> decide

/-- A blank is of no other class. -/
theorem classes_of_isBlank {c : Char} (h : Text.isBlank c = true) :
    c.isDigit = false ∧ isOperatorChar c = false ∧ isParenChar c = false := by
  refine ⟨Bool.eq_false_iff.2 fun hDigit => ?_, Bool.eq_false_iff.2 fun hOperator => ?_,
    Bool.eq_false_iff.2 fun hParen => ?_⟩
  · rw [isBlank_of_isDigit hDigit] at h
    cases h
  · rw [isBlank_of_isOperatorChar hOperator] at h
    cases h
  · rw [(classes_of_isParenChar hParen).2.2] at h
    cases h

/-- A character that belongs to no token, as it is blank or of no class. -/
def Text.isSkipped (c : Char) : Bool := !(c.isDigit || isOperatorChar c || isParenChar c)

theorem Text.isDigit_of_isSkipped {c : Char} (h : isSkipped c = true) : c.isDigit = false := by
  simp_all [isSkipped]

/-! ## The front lexeme -/

namespace Lexeme

/-- What a lexeme of each form consists of. -/
def Proper : Lexeme → Prop
  | .token .number text => text ≠ [] ∧ ∀ c ∈ text, c.isDigit = true
  | .token .operator text => ∃ c, isOperatorChar c = true ∧ text = [c]
  | .token .paren text => ∃ c, isParenChar c = true ∧ text = [c]
  | .blank run => run ≠ [] ∧ ∀ c ∈ run, Text.isBlank c = true
  | .stray c =>
    c.isDigit = false ∧ isOperatorChar c = false ∧ Text.isBlank c = false ∧ isParenChar c = false

/-- The text after the lexeme does not go on with its run. -/
def EndsBefore : Lexeme → List Char → Prop
  | .token .number _, rest => ∀ c ∈ rest.head?, c.isDigit = false
  | .blank _, rest => ∀ c ∈ rest.head?, Text.isBlank c = false
  | _, _ => True

theorem head?_dropWhile {p : Char → Bool} (cs : List Char) :
    ∀ c ∈ (cs.dropWhile p).head?, p c = false := by
  intro c hc
  have := List.head?_dropWhile_not p cs
  simpa [Option.mem_def.1 hc] using this

theorem proper_first (c : Char) (cs : List Char) : (first c cs).1.Proper := by
  have hRun : ∀ {p : Char → Bool}, p c = true → ∀ d ∈ c :: cs.takeWhile p, p d = true := by
    intro p hc d hd
    rcases List.mem_cons.1 hd with rfl | hd
    · exact hc
    · exact List.all_eq_true.1 List.all_takeWhile d hd
  unfold first
  split
  · rename_i hDigit
    exact ⟨List.cons_ne_nil _ _, hRun hDigit⟩
  · split
    · rename_i hOperator
      exact ⟨c, hOperator, rfl⟩
    · split
      · rename_i hBlank
        exact ⟨List.cons_ne_nil _ _, hRun hBlank⟩
      · split
        · rename_i hParen
          exact ⟨c, hParen, rfl⟩
        · simp_all [Proper]

theorem endsBefore_first (c : Char) (cs : List Char) :
    (first c cs).1.EndsBefore (first c cs).2 := by
  unfold first
  split
  · exact head?_dropWhile cs
  · split
    · trivial
    · split
      · exact head?_dropWhile cs
      · split <;> trivial

theorem takeWhile_dropWhile_run {α : Type} {p : α → Bool} {run rest : List α}
    (hRun : ∀ c ∈ run, p c = true) (hRest : ∀ c ∈ rest.head?, p c = false) :
    (run ++ rest).takeWhile p = run ∧ (run ++ rest).dropWhile p = rest := by
  rw [List.takeWhile_append_of_pos hRun, List.dropWhile_append_of_pos hRun]
  cases rest with
  | nil => simp
  | cons c rest =>
    have hc : p c = false := hRest c rfl
    simp [hc]

/-- A text starts with no more than one lexeme that is of its form and as long as it can be. -/
theorem first_eq {l : Lexeme} {rest cs : List Char} {c : Char} (hProper : l.Proper)
    (hEnds : l.EndsBefore rest) (h : l.chars ++ rest = c :: cs) : first c cs = (l, rest) := by
  cases l with
  | token kind text =>
    cases kind with
    | number =>
      obtain ⟨hSome, hDigits⟩ := hProper
      obtain ⟨d, run, rfl⟩ := List.exists_cons_of_ne_nil hSome
      obtain ⟨rfl, rfl⟩ := List.cons.inj h
      obtain ⟨hTake, hDrop⟩ := takeWhile_dropWhile_run (List.forall_mem_cons.1 hDigits).2 hEnds
      simp [first, hDigits d List.mem_cons_self, hTake, hDrop]
    | operator =>
      obtain ⟨d, hOperator, rfl⟩ := hProper
      obtain ⟨rfl, rfl⟩ := List.cons.inj h
      simp [first, isDigit_of_isOperatorChar hOperator, hOperator]
    | paren =>
      obtain ⟨d, hParen, rfl⟩ := hProper
      obtain ⟨rfl, rfl⟩ := List.cons.inj h
      obtain ⟨hDigit, hOperator, hBlank⟩ := classes_of_isParenChar hParen
      simp [first, hDigit, hOperator, hBlank, hParen]
  | blank run =>
    obtain ⟨hSome, hBlanks⟩ := hProper
    obtain ⟨d, run, rfl⟩ := List.exists_cons_of_ne_nil hSome
    obtain ⟨rfl, rfl⟩ := List.cons.inj h
    have hBlank := hBlanks d List.mem_cons_self
    obtain ⟨hDigit, hOperator, -⟩ := classes_of_isBlank hBlank
    obtain ⟨hTake, hDrop⟩ := takeWhile_dropWhile_run (List.forall_mem_cons.1 hBlanks).2 hEnds
    simp [first, hDigit, hOperator, hBlank, hTake, hDrop]
  | stray d =>
    obtain ⟨hDigit, hOperator, hBlank, hParen⟩ := hProper
    obtain ⟨rfl, rfl⟩ := List.cons.inj h
    simp [first, hDigit, hOperator, hBlank, hParen]

theorem chars_ne_nil_of_proper {l : Lexeme} (h : l.Proper) : l.chars ≠ [] := by
  cases l with
  | token kind text =>
    cases kind with
    | number => exact h.1
    | operator => obtain ⟨c, -, rfl⟩ := h; exact List.cons_ne_nil _ _
    | paren => obtain ⟨c, -, rfl⟩ := h; exact List.cons_ne_nil _ _
  | blank run => exact h.1
  | stray c => exact List.cons_ne_nil _ _

/-- A token holds no blank. -/
theorem isBlank_of_mem_token {kind : Token.Kind} {text : List Char}
    (h : (Lexeme.token kind text).Proper) {c : Char} (hc : c ∈ text) : Text.isBlank c = false := by
  cases kind with
  | number => exact isBlank_of_isDigit (h.2 c hc)
  | operator =>
    obtain ⟨d, hOperator, rfl⟩ := h
    rw [List.mem_singleton.1 hc]
    exact isBlank_of_isOperatorChar hOperator
  | paren =>
    obtain ⟨d, hParen, rfl⟩ := h
    rw [List.mem_singleton.1 hc]
    exact (classes_of_isParenChar hParen).2.2

theorem isSkipped_of_mem_blank {run : List Char} (h : (Lexeme.blank run).Proper) {c : Char}
    (hc : c ∈ run) : Text.isSkipped c = true := by
  obtain ⟨hDigit, hOperator, hParen⟩ := classes_of_isBlank (h.2 c hc)
  simp [Text.isSkipped, hDigit, hOperator, hParen]

theorem isSkipped_stray {c : Char} (h : (Lexeme.stray c).Proper) : Text.isSkipped c = true := by
  obtain ⟨hDigit, hOperator, -, hParen⟩ := h
  simp [Text.isSkipped, hDigit, hOperator, hParen]

/-- The lexemes stand apart: each is of its form, and the text of those after it does not go on
with its run. -/
def Apart : List Lexeme → Prop
  | [] => True
  | l :: ls => l.Proper ∧ l.EndsBefore (ls.flatMap chars) ∧ Apart ls

end Lexeme

/-! ## Scans of lexemes -/

namespace Scan

/-- The scan of lexemes of which the first stands at byte `offset` of the source. -/
def ofLexemes (offset : Nat) : List Lexeme → Scan
  | [] => ⟨[], []⟩
  | l :: ls => cons offset l (ofLexemes (offset + String.utf8Len l.chars) ls)

theorem ofChars_first (offset : Nat) (c : Char) (cs : List Char) :
    ofChars offset (c :: cs) =
      cons offset (Lexeme.first c cs).1
        (ofChars (offset + String.utf8Len (Lexeme.first c cs).1.chars) (Lexeme.first c cs).2) := by
  rw [ofChars, String.utf8ByteSize_ofList]

theorem ofChars_flatMap_chars {ls : List Lexeme} (h : Lexeme.Apart ls) (offset : Nat) :
    ofChars offset (ls.flatMap Lexeme.chars) = ofLexemes offset ls := by
  induction ls generalizing offset with
  | nil => rw [List.flatMap_nil, ofChars, ofLexemes]
  | cons l ls ih =>
    obtain ⟨hProper, hEnds, hApart⟩ := h
    have hSome : l.chars ++ ls.flatMap Lexeme.chars ≠ [] :=
      List.append_ne_nil_of_left_ne_nil (Lexeme.chars_ne_nil_of_proper hProper) _
    obtain ⟨c, cs, hText⟩ := List.exists_cons_of_ne_nil hSome
    rw [List.flatMap_cons, hText, ofChars_first, Lexeme.first_eq hProper hEnds hText, ofLexemes,
      ih hApart]

theorem ofSource_eq_ofLexemes {source : String} {ls : List Lexeme} (h : Lexeme.Apart ls)
    (hText : ls.flatMap Lexeme.chars = source.toList) : ofSource source = ofLexemes 0 ls := by
  unfold ofSource
  rw [← hText, ofChars_flatMap_chars h]

/-- The numbers of a scan are numerals. -/
theorem isNumeral_of_mem {offset : Nat} {text : List Char} {t : Token}
    (h : t ∈ (ofChars offset text).tokens) (hKind : t.kind = .number) :
    Text.isNumeral t.text = true := by
  fun_induction ofChars offset text with
  | case1 => cases h
  | case2 offset c cs lexeme ih =>
    have hProper : lexeme.Proper := Lexeme.proper_first c cs
    generalize lexeme = l at h ih hProper
    cases l with
    | blank run => exact ih h
    | stray c => exact ih h
    | token kind text =>
      rcases List.mem_cons.1 h with rfl | h
      · cases hKind
        simpa [Text.isNumeral_iff, Lexeme.Proper] using hProper
      · exact ih h

end Scan

end ReversePolish
