import Mathlib
import ReversePolish.Proofs.Scanning

/-!
# Scans tile their source

A scan says where its tokens and warnings stand. Together with the blanks they make up the whole
source, each number taken in full, and no other tokens and warnings do.

* `Token.FitsIn`, `Warning.FitsIn`: a token or a warning is of its class and stands where it says.
  A number is not next to another digit.
* `Scan.Tiles`: everything in the scan fits, in the order of the text, and every character that is
  not blank lies in one token or one warning.
* `Token.FitsIn.parts`: of a token that fits, one character shows the whole. Hence two tokens that
  share a character are the same (`Token.FitsIn.eq_of_covers`), and a text has at most one tiling
  (`Scan.Tiles.eq`).
* `Scan.tiles_ofLexemes`: lexemes that stand apart are a tiling, and every text is made of such
  lexemes (`Lexeme.exists_apart`), so that every scan is one (`Scan.tiles_ofSource`).
* `Scan.tiles_iff_eq_ofSource`: the scan of a source is its one and only tiling.
-/

namespace ReversePolish

/-! ## Tilings -/

/-- The token is of its class and stands in the text at its offset. A number has no digit before it
and none behind it. -/
structure Token.FitsIn (text : List Char) (t : Token) : Prop where
  proper : (Lexeme.token t.kind t.text.toList).Proper
  stands : ∃ before after, text = before ++ (t.text.toList ++ after) ∧
    String.utf8Len before = t.offset ∧
    (t.kind = .number →
      (∀ c ∈ before.getLast?, c.isDigit = false) ∧ ∀ c ∈ after.head?, c.isDigit = false)

/-- The character is of no class and stands in the text at its offset. -/
structure Warning.FitsIn (text : List Char) (w : Warning) : Prop where
  stray : (Lexeme.stray w.char).Proper
  stands : ∃ before after, text = before ++ w.char :: after ∧ String.utf8Len before = w.offset

/-- The byte offset lies in the token. -/
def Token.Covers (t : Token) (offset : Nat) : Prop :=
  t.offset ≤ offset ∧ offset < t.offset + t.text.utf8ByteSize

/-- The tokens and the warnings of the scan are in order, each of them fits in the text, and every
character of the text lies in exactly one token, in exactly one warning, or is blank. -/
structure Scan.Tiles (text : List Char) (s : Scan) : Prop where
  tokens_increasing : s.tokens.Pairwise fun t u => t.offset < u.offset
  warnings_increasing : s.warnings.Pairwise fun v w => v.offset < w.offset
  token_fits : ∀ t ∈ s.tokens, t.FitsIn text
  warning_fits : ∀ w ∈ s.warnings, w.FitsIn text
  covered : ∀ before c after, text = before ++ c :: after →
    (∃! t, t ∈ s.tokens ∧ t.Covers (String.utf8Len before)) ∨
      (∃! w, w ∈ s.warnings ∧ w.offset = String.utf8Len before) ∨ Text.isBlank c = true

/-! ## The class of a character -/

/-- The class of the tokens that the character can belong to. -/
def Token.Kind.ofChar? (c : Char) : Option Token.Kind :=
  if c.isDigit then some .number
  else if isOperatorChar c then some .operator
  else if isParenChar c then some .paren
  else none

theorem Lexeme.Proper.ofChar?_eq_some {kind : Token.Kind} {text : List Char}
    (h : (Lexeme.token kind text).Proper) {c : Char} (hc : c ∈ text) :
    Token.Kind.ofChar? c = some kind := by
  unfold Token.Kind.ofChar?
  cases kind with
  | number => rw [if_pos (h.2 c hc)]
  | operator =>
    obtain ⟨d, hOperator, rfl⟩ := h
    rw [List.mem_singleton.1 hc, isDigit_of_isOperatorChar hOperator, if_pos hOperator]
    rfl
  | paren =>
    obtain ⟨d, hParen, rfl⟩ := h
    obtain ⟨hDigit, hOperator, -⟩ := classes_of_isParenChar hParen
    rw [List.mem_singleton.1 hc, hDigit, hOperator, if_pos hParen]
    rfl

theorem Lexeme.Proper.eq_singleton {kind : Token.Kind} {text : List Char}
    (h : (Lexeme.token kind text).Proper) (hKind : kind ≠ .number) : ∃ c, text = [c] := by
  cases kind with
  | number => exact absurd rfl hKind
  | operator => obtain ⟨c, -, hText⟩ := h; exact ⟨c, hText⟩
  | paren => obtain ⟨c, -, hText⟩ := h; exact ⟨c, hText⟩

theorem Lexeme.Proper.ofChar?_eq_none {c : Char} (h : (Lexeme.stray c).Proper) :
    Token.Kind.ofChar? c = none := by
  obtain ⟨hDigit, hOperator, -, hParen⟩ := h
  simp [Token.Kind.ofChar?, hDigit, hOperator, hParen]

theorem Token.Kind.ofChar?_of_isBlank {c : Char} (h : Text.isBlank c = true) :
    Token.Kind.ofChar? c = none := by
  obtain ⟨hDigit, hOperator, hParen⟩ := classes_of_isBlank h
  simp [ofChar?, hDigit, hOperator, hParen]

/-! ## At most one tiling -/

namespace Text

/-- A character that stands inside a piece cuts it in two. -/
theorem exists_cut {text before after left piece right : List Char} {c : Char}
    (hChar : text = before ++ c :: after) (hPiece : text = left ++ (piece ++ right))
    (hLow : String.utf8Len left ≤ String.utf8Len before)
    (hHigh : String.utf8Len before < String.utf8Len left + String.utf8Len piece) :
    ∃ x y, piece = x ++ c :: y ∧ before = left ++ x ∧ after = y ++ right := by
  have hSame : left ++ (piece ++ right) = before ++ c :: after := hPiece.symm.trans hChar
  obtain ⟨x, rfl, hBehind⟩ : ∃ x, before = left ++ x ∧ piece ++ right = x ++ c :: after := by
    rcases List.append_eq_append_iff.1 hSame with ⟨x, hBefore, hBehind⟩ | ⟨z, hLeft, hBehind⟩
    · exact ⟨x, hBefore, hBehind⟩
    · have hNil : z = [] := by
        apply String.utf8Len_eq_zero.1
        rw [hLeft, String.utf8Len_append] at hLow
        omega
      subst hNil
      exact ⟨[], by simpa using hLeft.symm, by simpa using hBehind.symm⟩
  rw [String.utf8Len_append] at hHigh
  rcases List.append_eq_append_iff.1 hBehind with ⟨z, rfl, -⟩ | ⟨z, rfl, hAfter⟩
  · rw [String.utf8Len_append] at hHigh
    omega
  · cases z with
    | nil => simp at hHigh
    | cons d y =>
      obtain ⟨rfl, rfl⟩ := List.cons.inj hAfter
      exact ⟨x, y, rfl, rfl, rfl⟩

theorem cut_singleton {x y : List Char} {c d : Char} (h : [d] = x ++ c :: y) :
    x = [] ∧ d = c ∧ y = [] := by
  cases x with
  | nil =>
    obtain ⟨rfl, rfl⟩ := List.cons.inj h
    exact ⟨rfl, rfl, rfl⟩
  | cons e x => simp at h

end Text

/-- Of a token that fits, one character shows the whole: a number goes as far as there are digits
on both sides, and any other token is the character alone. -/
theorem Token.FitsIn.parts {text before after : List Char} {c : Char} {t : Token}
    (h : t.FitsIn text) (hChar : text = before ++ c :: after)
    (hCovers : t.Covers (String.utf8Len before)) :
    ∃ left x y, before = left ++ x ∧ t.text.toList = x ++ c :: y ∧
      String.utf8Len left = t.offset ∧ Token.Kind.ofChar? c = some t.kind ∧
      x.reverse = (if t.kind = .number then before.reverse.takeWhile Char.isDigit else []) ∧
      y = if t.kind = .number then after.takeWhile Char.isDigit else [] := by
  obtain ⟨left, right, hPiece, hOffset, hMaximal⟩ := h.stands
  obtain ⟨hLow, hHigh⟩ := hCovers
  rw [← hOffset] at hLow
  rw [← hOffset, ← String.utf8Len_toList] at hHigh
  obtain ⟨x, y, hToken, rfl, rfl⟩ := Text.exists_cut hChar hPiece hLow hHigh
  have hProper := h.proper
  rw [hToken] at hProper
  refine ⟨left, x, y, rfl, hToken, hOffset, hProper.ofChar?_eq_some (by simp), ?_⟩
  by_cases hKind : t.kind = .number
  · obtain ⟨hLeft, hRight⟩ := hMaximal hKind
    rw [hKind] at hProper
    have hFront : ∀ d ∈ x.reverse, d.isDigit = true := fun d hd =>
      hProper.2 d (by simp [List.mem_reverse.1 hd])
    have hBack : ∀ d ∈ y, d.isDigit = true := fun d hd => hProper.2 d (by simp [hd])
    rw [if_pos hKind, if_pos hKind, List.reverse_append]
    rw [← List.head?_reverse] at hLeft
    exact ⟨(Lexeme.takeWhile_dropWhile_run hFront hLeft).1.symm,
      (Lexeme.takeWhile_dropWhile_run hBack hRight).1.symm⟩
  · obtain ⟨d, hSingle⟩ := hProper.eq_singleton hKind
    obtain ⟨rfl, -, rfl⟩ := Text.cut_singleton hSingle.symm
    rw [if_neg hKind, if_neg hKind]
    exact ⟨rfl, rfl⟩

theorem Token.FitsIn.eq_of_covers {text before after : List Char} {c : Char} {t u : Token}
    (ht : t.FitsIn text) (hu : u.FitsIn text) (hChar : text = before ++ c :: after)
    (hCoversT : t.Covers (String.utf8Len before)) (hCoversU : u.Covers (String.utf8Len before)) :
    t = u := by
  obtain ⟨left, x, y, hBefore, hText, hOffset, hKind, hx, hy⟩ := ht.parts hChar hCoversT
  obtain ⟨left', x', y', hBefore', hText', hOffset', hKind', hx', hy'⟩ := hu.parts hChar hCoversU
  have hSameKind : t.kind = u.kind := Option.some.inj (hKind.symm.trans hKind')
  rw [← hSameKind] at hx' hy'
  obtain rfl : x = x' := List.reverse_injective (hx.trans hx'.symm)
  obtain rfl : y = y' := hy.trans hy'.symm
  obtain rfl : left = left' := List.append_cancel_right (hBefore.symm.trans hBefore')
  have hSameText : t.text = u.text := String.toList_inj.1 (hText.trans hText'.symm)
  have hSameOffset : t.offset = u.offset := hOffset.symm.trans hOffset'
  cases t
  cases u
  simp only [Token.mk.injEq]
  exact ⟨hSameKind, hSameText, hSameOffset⟩

theorem Token.FitsIn.text_ne_nil {text : List Char} {t : Token} (h : t.FitsIn text) :
    t.text.toList ≠ [] :=
  Lexeme.chars_ne_nil_of_proper h.proper

/-- The first character of a token that fits, with what stands around it. -/
theorem Token.FitsIn.exists_first {text : List Char} {t : Token} (h : t.FitsIn text) :
    ∃ before c after, text = before ++ c :: after ∧ String.utf8Len before = t.offset ∧
      t.Covers t.offset ∧ Token.Kind.ofChar? c = some t.kind := by
  obtain ⟨before, after, hText, hOffset, -⟩ := h.stands
  obtain ⟨c, cs, hToken⟩ := List.exists_cons_of_ne_nil h.text_ne_nil
  have hPositive := c.utf8Size_pos
  refine ⟨before, c, cs ++ after, by simp [hText, hToken], hOffset, ⟨Nat.le_refl _, ?_⟩, ?_⟩
  · rw [← String.utf8Len_toList, hToken, String.utf8Len_cons]
    omega
  · exact h.proper.ofChar?_eq_some (by simp [hToken])

theorem Warning.FitsIn.char_eq {text before after : List Char} {c : Char} {w : Warning}
    (h : w.FitsIn text) (hChar : text = before ++ c :: after)
    (hOffset : w.offset = String.utf8Len before) : w.char = c := by
  obtain ⟨left, right, hPiece, hLeft⟩ := h.stands
  have hPositive := w.char.utf8Size_pos
  have hSingle : text = left ++ ([w.char] ++ right) := hPiece
  obtain ⟨x, y, hCut, -, -⟩ := Text.exists_cut hChar hSingle (by omega) (by
    simp only [String.utf8Len_cons, String.utf8Len_nil]
    omega)
  exact (Text.cut_singleton hCut).2.1

theorem Warning.FitsIn.eq_of_offset {text : List Char} {v w : Warning} (hv : v.FitsIn text)
    (hw : w.FitsIn text) (hOffset : v.offset = w.offset) : v = w := by
  obtain ⟨before, after, hChar, hAt⟩ := hw.stands
  have hSameChar : v.char = w.char := hv.char_eq hChar (by omega)
  cases v
  cases w
  simp only [Warning.mk.injEq]
  exact ⟨hSameChar, hOffset⟩

theorem eq_of_increasing {α : Type} {place : α → Nat} {l l' : List α}
    (h : l.Pairwise fun a b => place a < place b) (h' : l'.Pairwise fun a b => place a < place b)
    (hMem : ∀ a, a ∈ l ↔ a ∈ l') : l = l' := by
  have : Std.Irrefl fun a b => place a < place b := ⟨fun _ => Nat.lt_irrefl _⟩
  have : Std.Antisymm fun a b => place a < place b := ⟨fun _ _ hab hba => by omega⟩
  exact h.eq_of_mem_iff h' hMem

namespace Scan.Tiles

variable {text : List Char} {s s' : Scan}

theorem tokens_subset (h : Tiles text s) (h' : Tiles text s') : s.tokens ⊆ s'.tokens := by
  intro t ht
  have hFits := h.token_fits t ht
  obtain ⟨before, c, after, hChar, hOffset, hCovers, hKind⟩ := hFits.exists_first
  rw [← hOffset] at hCovers
  rcases h'.covered before c after hChar with ⟨u, ⟨hu, hCovers'⟩, -⟩ | ⟨w, ⟨hw, hAt⟩, -⟩ | hBlank
  · rw [hFits.eq_of_covers (h'.token_fits u hu) hChar hCovers hCovers']
    exact hu
  · have hStray := (h'.warning_fits w hw).stray.ofChar?_eq_none
    rw [(h'.warning_fits w hw).char_eq hChar hAt, hKind] at hStray
    cases hStray
  · rw [Token.Kind.ofChar?_of_isBlank hBlank] at hKind
    cases hKind

theorem warnings_subset (h : Tiles text s) (h' : Tiles text s') : s.warnings ⊆ s'.warnings := by
  intro w hw
  have hFits := h.warning_fits w hw
  have hStray := hFits.stray.ofChar?_eq_none
  obtain ⟨before, after, hChar, hOffset⟩ := hFits.stands
  rcases h'.covered before w.char after hChar with
    ⟨t, ⟨ht, hCovers⟩, -⟩ | ⟨v, ⟨hv, hAt⟩, -⟩ | hBlank
  · obtain ⟨-, -, -, -, -, -, hKind, -⟩ := (h'.token_fits t ht).parts hChar hCovers
    rw [hStray] at hKind
    cases hKind
  · rw [hFits.eq_of_offset (h'.warning_fits v hv) (hOffset.symm.trans hAt.symm)]
    exact hv
  · rw [hFits.stray.2.2.1] at hBlank
    cases hBlank

/-- A text has at most one tiling. -/
theorem eq (h : Tiles text s) (h' : Tiles text s') : s = s' := by
  have hTokens : s.tokens = s'.tokens :=
    eq_of_increasing h.tokens_increasing h'.tokens_increasing fun t =>
      ⟨fun ht => h.tokens_subset h' ht, fun ht => h'.tokens_subset h ht⟩
  have hWarnings : s.warnings = s'.warnings :=
    eq_of_increasing h.warnings_increasing h'.warnings_increasing fun w =>
      ⟨fun hw => h.warnings_subset h' hw, fun hw => h'.warnings_subset h hw⟩
  cases s
  cases s'
  simp only [Scan.mk.injEq]
  exact ⟨hTokens, hWarnings⟩

end Scan.Tiles

/-! ## Lexemes that stand apart -/

/-- An element of a list with a property of what stands before it is the first one, or it is in the
rest. -/
theorem exists_split_cons {α : Type} {a m : α} {l : List α} {P : List α → Prop} :
    (∃ left right, a :: l = left ++ m :: right ∧ P left) ↔
      a = m ∧ P [] ∨ ∃ left right, l = left ++ m :: right ∧ P (a :: left) := by
  constructor
  · rintro ⟨left, right, hSplit, hP⟩
    cases left with
    | nil => exact Or.inl ⟨(List.cons.inj hSplit).1, hP⟩
    | cons b left =>
      obtain ⟨rfl, rfl⟩ := List.cons.inj hSplit
      exact Or.inr ⟨left, right, rfl, hP⟩
  · rintro (⟨rfl, hP⟩ | ⟨left, right, rfl, hP⟩)
    · exact ⟨[], l, rfl, hP⟩
    · exact ⟨a :: left, right, rfl, hP⟩

namespace Lexeme

theorem exists_apart (text : List Char) : ∃ ls, Apart ls ∧ ls.flatMap chars = text := by
  match text with
  | [] => exact ⟨[], trivial, rfl⟩
  | c :: cs =>
    obtain ⟨ls, hApart, hRest⟩ := exists_apart (first c cs).2
    refine ⟨(first c cs).1 :: ls, ⟨proper_first c cs, ?_, hApart⟩, ?_⟩
    · rw [hRest]
      exact endsBefore_first c cs
    · rw [List.flatMap_cons, hRest, chars_append_rest]
termination_by text.length
decreasing_by exact length_rest_lt c cs

theorem Apart.of_append {left right : List Lexeme} (h : Apart (left ++ right)) : Apart right := by
  induction left with
  | nil => exact h
  | cons l left ih => exact ih h.2.2

theorem isNumber_of_digit {l : Lexeme} (h : l.Proper) {c : Char} (hc : c ∈ l.chars)
    (hDigit : c.isDigit = true) : ∃ text, l = .token .number text := by
  have hKind : Token.Kind.ofChar? c = some .number := by simp [Token.Kind.ofChar?, hDigit]
  cases l with
  | token kind text =>
    rw [h.ofChar?_eq_some hc] at hKind
    cases hKind
    exact ⟨text, rfl⟩
  | blank run =>
    rw [Token.Kind.ofChar?_of_isBlank (h.2 c hc)] at hKind
    cases hKind
  | stray d =>
    rw [List.mem_singleton.1 hc, h.ofChar?_eq_none] at hKind
    cases hKind

/-- No digit stands right before a number, because it would be part of a number that does not end
there. -/
theorem Apart.getLast?_before_number {left right : List Lexeme} {text : List Char}
    (h : Apart (left ++ .token .number text :: right)) :
    ∀ c ∈ (left.flatMap chars).getLast?, c.isDigit = false := by
  intro c hc
  rcases List.eq_nil_or_concat left with rfl | ⟨front, l, rfl⟩
  · cases hc
  · rw [List.concat_eq_append, List.append_assoc] at h
    obtain ⟨hProper, hEnds, hNumber, -⟩ := h.of_append
    rw [List.concat_eq_append, List.flatMap_append, List.flatMap_singleton,
      List.getLast?_append_of_ne_nil _ (chars_ne_nil_of_proper hProper)] at hc
    by_contra hDigit
    obtain ⟨run, rfl⟩ :=
      isNumber_of_digit hProper (List.mem_of_getLast? hc) (by simpa using hDigit)
    obtain ⟨d, ds, rfl⟩ := List.exists_cons_of_ne_nil hNumber.1
    have hNot : d.isDigit = false := hEnds d rfl
    rw [hNumber.2 d List.mem_cons_self] at hNot
    cases hNot

/-- Every character of lexemes stands in one of them. -/
theorem exists_of_flatMap_chars {ls : List Lexeme} {before after : List Char} {c : Char}
    (h : ls.flatMap chars = before ++ c :: after) :
    ∃ left l right x y, ls = left ++ l :: right ∧ l.chars = x ++ c :: y ∧
      before = left.flatMap chars ++ x := by
  induction ls generalizing before with
  | nil => simp at h
  | cons l ls ih =>
    rw [List.flatMap_cons] at h
    have hLater : ∀ z, before = l.chars ++ z → ls.flatMap chars = z ++ c :: after →
        ∃ left m right x y, l :: ls = left ++ m :: right ∧ m.chars = x ++ c :: y ∧
          before = left.flatMap chars ++ x := by
      rintro z rfl hRest
      obtain ⟨left, m, right, x, y, rfl, hChars, rfl⟩ := ih hRest
      exact ⟨l :: left, m, right, x, y, rfl, hChars, by simp⟩
    rcases List.append_eq_append_iff.1 h with ⟨z, hBefore, hRest⟩ | ⟨z, hChars, hRest⟩
    · exact hLater z hBefore hRest
    · cases z with
      | nil => exact hLater [] (by simpa using hChars.symm) (by simpa using hRest.symm)
      | cons d y =>
        obtain ⟨rfl, -⟩ := List.cons.inj hRest
        exact ⟨[], l, ls, before, y, rfl, hChars, rfl⟩

end Lexeme

/-! ## Their scan is a tiling -/

namespace Scan

open Lexeme (Apart chars)

theorem mem_tokens_ofLexemes {ls : List Lexeme} {offset : Nat} {t : Token} :
    t ∈ (ofLexemes offset ls).tokens ↔
      ∃ left right, ls = left ++ .token t.kind t.text.toList :: right ∧
        t.offset = offset + String.utf8Len (left.flatMap chars) := by
  induction ls generalizing offset with
  | nil => simp [ofLexemes]
  | cons l ls ih =>
    rw [exists_split_cons, ofLexemes]
    cases l with
    | token kind text =>
      have hFirst : t = ⟨kind, String.ofList text, offset⟩ ↔
          Lexeme.token kind text = .token t.kind t.text.toList ∧ t.offset = offset := by
        obtain ⟨kind', text', offset'⟩ := t
        rw [Token.mk.injEq, Lexeme.token.injEq, ← String.toList_inj, String.toList_ofList]
        simp only [eq_comm, and_assoc]
      simp [cons, hFirst, ih, Nat.add_assoc]
    | blank run => simp [cons, ih, Nat.add_assoc]
    | stray c => simp [cons, ih, Nat.add_assoc]

theorem mem_warnings_ofLexemes {ls : List Lexeme} {offset : Nat} {w : Warning} :
    w ∈ (ofLexemes offset ls).warnings ↔
      ∃ left right, ls = left ++ .stray w.char :: right ∧
        w.offset = offset + String.utf8Len (left.flatMap chars) := by
  induction ls generalizing offset with
  | nil => simp [ofLexemes]
  | cons l ls ih =>
    rw [exists_split_cons, ofLexemes]
    cases l with
    | token kind text => simp [cons, ih, Nat.add_assoc]
    | blank run => simp [cons, ih, Nat.add_assoc]
    | stray c =>
      have hFirst : w = ⟨c, offset⟩ ↔ Lexeme.stray c = .stray w.char ∧ w.offset = offset := by
        obtain ⟨char, offset'⟩ := w
        rw [Warning.mk.injEq, Lexeme.stray.injEq]
        simp only [eq_comm]
      simp [cons, hFirst, ih, Nat.add_assoc]

theorem increasing_ofLexemes {ls : List Lexeme} (h : Apart ls) (offset : Nat) :
    (ofLexemes offset ls).tokens.Pairwise (fun t u => t.offset < u.offset) ∧
      (ofLexemes offset ls).warnings.Pairwise fun v w => v.offset < w.offset := by
  induction ls generalizing offset with
  | nil => exact ⟨List.Pairwise.nil, List.Pairwise.nil⟩
  | cons l ls ih =>
    have hIncreasing := ih h.2.2 (offset + String.utf8Len l.chars)
    have hPositive : 0 < String.utf8Len l.chars := by
      rw [Nat.pos_iff_ne_zero, Ne, String.utf8Len_eq_zero]
      exact Lexeme.chars_ne_nil_of_proper h.1
    rw [ofLexemes]
    cases l with
    | token kind text =>
      refine ⟨List.pairwise_cons.2 ⟨fun t ht => ?_, hIncreasing.1⟩, hIncreasing.2⟩
      obtain ⟨left, right, -, hOffset⟩ := mem_tokens_ofLexemes.1 ht
      change offset < t.offset
      omega
    | blank run => exact hIncreasing
    | stray c =>
      refine ⟨hIncreasing.1, List.pairwise_cons.2 ⟨fun w hw => ?_, hIncreasing.2⟩⟩
      obtain ⟨left, right, -, hOffset⟩ := mem_warnings_ofLexemes.1 hw
      change offset < w.offset
      omega

theorem fitsIn_of_mem_tokens {ls : List Lexeme} (h : Apart ls) {t : Token}
    (ht : t ∈ (ofLexemes 0 ls).tokens) : t.FitsIn (ls.flatMap chars) := by
  obtain ⟨left, right, rfl, hOffset⟩ := mem_tokens_ofLexemes.1 ht
  obtain ⟨hProper, hEnds, -⟩ := h.of_append
  refine ⟨hProper, left.flatMap chars, right.flatMap chars, ?_, by omega, ?_⟩
  · rw [List.flatMap_append, List.flatMap_cons]
    rfl
  · intro hKind
    rw [hKind] at h hEnds
    exact ⟨h.getLast?_before_number, hEnds⟩

theorem fitsIn_of_mem_warnings {ls : List Lexeme} (h : Apart ls) {w : Warning}
    (hw : w ∈ (ofLexemes 0 ls).warnings) : w.FitsIn (ls.flatMap chars) := by
  obtain ⟨left, right, rfl, hOffset⟩ := mem_warnings_ofLexemes.1 hw
  obtain ⟨hProper, -⟩ := h.of_append
  refine ⟨hProper, left.flatMap chars, right.flatMap chars, ?_, by omega⟩
  rw [List.flatMap_append, List.flatMap_cons]
  rfl

theorem tiles_ofLexemes {ls : List Lexeme} (h : Apart ls) :
    Tiles (ls.flatMap chars) (ofLexemes 0 ls) := by
  obtain ⟨hTokens, hWarnings⟩ := increasing_ofLexemes h 0
  refine ⟨hTokens, hWarnings, fun t ht => fitsIn_of_mem_tokens h ht,
    fun w hw => fitsIn_of_mem_warnings h hw, ?_⟩
  intro before c after hChar
  obtain ⟨left, l, right, x, y, rfl, hChars, rfl⟩ := Lexeme.exists_of_flatMap_chars hChar
  cases l with
  | token kind text =>
    let t : Token := ⟨kind, String.ofList text, String.utf8Len (left.flatMap chars)⟩
    have hMem : t ∈ (ofLexemes 0 (left ++ .token kind text :: right)).tokens :=
      mem_tokens_ofLexemes.2 ⟨left, right, by simp [t], by simp [t]⟩
    have hCovers : t.Covers (String.utf8Len (left.flatMap chars ++ x)) := by
      have hText : text = x ++ c :: y := hChars
      have hPositive := c.utf8Size_pos
      unfold Token.Covers
      simp only [t, String.utf8ByteSize_ofList, hText, String.utf8Len_append, String.utf8Len_cons]
      omega
    refine Or.inl ⟨t, ⟨hMem, hCovers⟩, fun u hu => ?_⟩
    have hFits := fitsIn_of_mem_tokens h hu.1
    exact hFits.eq_of_covers (fitsIn_of_mem_tokens h hMem) hChar hu.2 hCovers
  | blank run =>
    have hRun : run = x ++ c :: y := hChars
    obtain ⟨hProper, -⟩ := h.of_append
    exact Or.inr (Or.inr (hProper.2 c (by simp [hRun])))
  | stray d =>
    obtain ⟨rfl, rfl, rfl⟩ := Text.cut_singleton hChars
    rw [List.append_nil]
    let w : Warning := ⟨d, String.utf8Len (left.flatMap chars)⟩
    have hMem : w ∈ (ofLexemes 0 (left ++ .stray d :: right)).warnings :=
      mem_warnings_ofLexemes.2 ⟨left, right, rfl, by simp [w]⟩
    refine Or.inr (Or.inl ⟨w, ⟨hMem, rfl⟩, fun v hv => ?_⟩)
    exact (fitsIn_of_mem_warnings h hv.1).eq_of_offset (fitsIn_of_mem_warnings h hMem) hv.2

theorem tiles_ofSource (source : String) : Tiles source.toList (ofSource source) := by
  obtain ⟨ls, hApart, hText⟩ := Lexeme.exists_apart source.toList
  rw [ofSource_eq_ofLexemes hApart hText, ← hText]
  exact tiles_ofLexemes hApart

/-- Without warnings, the tokens hold all that is not blank. -/
theorem flatMap_text_ofLexemes {ls : List Lexeme} (h : Apart ls) {offset : Nat}
    (hWarnings : (ofLexemes offset ls).warnings = []) :
    (ofLexemes offset ls).tokens.flatMap (fun t => t.text.toList) =
      (ls.flatMap chars).filter fun c => !Text.isBlank c := by
  induction ls generalizing offset with
  | nil => rfl
  | cons l ls ih =>
    obtain ⟨hProper, -, hApart⟩ := h
    rw [List.flatMap_cons, List.filter_append]
    rw [ofLexemes] at hWarnings ⊢
    cases l with
    | token kind text =>
      have hKept : text.filter (fun c => !Text.isBlank c) = text := by
        refine List.filter_eq_self.2 fun c hc => ?_
        simp [Lexeme.isBlank_of_mem_token hProper hc]
      have hRest := ih hApart hWarnings
      simpa [cons, chars, hKept] using hRest
    | blank run =>
      have hDropped : run.filter (fun c => !Text.isBlank c) = [] := by
        refine List.filter_eq_nil_iff.2 fun c hc => ?_
        simp [hProper.2 c hc]
      have hRest := ih hApart hWarnings
      simpa [cons, chars, hDropped] using hRest
    | stray c => cases hWarnings

/-- **Scanning is tiling.** The scan of a source is its one and only tiling. Without warnings, the
texts of the tokens make up the source without its blanks. -/
theorem tiles_iff_eq_ofSource (source : String) :
    (∀ s, Tiles source.toList s ↔ s = ofSource source) ∧
      ((ofSource source).warnings = [] →
        String.join ((ofSource source).tokens.map Token.text) =
          String.ofList (source.toList.filter fun c => !Text.isBlank c)) := by
  obtain ⟨ls, hApart, hText⟩ := Lexeme.exists_apart source.toList
  rw [ofSource_eq_ofLexemes hApart hText, ← hText]
  refine ⟨fun s => ⟨fun h => h.eq (tiles_ofLexemes hApart), ?_⟩, fun hWarnings => ?_⟩
  · rintro rfl
    exact tiles_ofLexemes hApart
  · have hTexts := flatMap_text_ofLexemes hApart hWarnings
    rw [← String.toList_inj, String.toList_join, String.toList_ofList, List.flatMap_map]
    exact hTexts

/-- A stray character of two bytes between two numbers, and blanks of two and three bytes around an
operator. -/
theorem tiles_iff_eq_ofSource_multibyte :
    (∀ s, Tiles "1é2".toList s ↔ s = ⟨[⟨.number, "1", 0⟩, ⟨.number, "2", 3⟩], [⟨'é', 1⟩]⟩) ∧
      (ofSource "12\u00a0+\ufeff3").warnings = [] ∧
      String.join ((ofSource "12\u00a0+\ufeff3").tokens.map Token.text) = "12+3" := by
  have hStray : ofSource "1é2" = ⟨[⟨.number, "1", 0⟩, ⟨.number, "2", 3⟩], [⟨'é', 1⟩]⟩ := by cbv
  have hNone : (ofSource "12\u00a0+\ufeff3").warnings = [] := by cbv
  refine ⟨fun s => ?_, hNone, ?_⟩
  · rw [← hStray]
    exact (tiles_iff_eq_ofSource "1é2").1 s
  · rw [(tiles_iff_eq_ofSource "12\u00a0+\ufeff3").2 hNone]
    decide

end Scan

end ReversePolish
