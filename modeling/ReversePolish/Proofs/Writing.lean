import Mathlib.Data.List.Basic
import ReversePolish.Proofs.Compiling
import ReversePolish.Proofs.Unplaced

/-!
# Writing expressions

Every expression with numerals for its numbers can be written so that it is read back unchanged, up
to the offsets: with parentheses where the levels of binding ask for them, or with more than that,
and with any blanks around the lexemes.

* `Expr.written`: the lexemes of an expression, with parentheses where `brackets` says so.
  `Place.needs` says where they cannot be left out.
* `Expr.apart_written`, `Expr.derives_written`: the lexemes stand apart, and they spell the
  expression at the level of its place if no needed parentheses are missing.
* `Lexeme.spaced`: the text of lexemes with blanks before, between and behind them, which has the
  lexemes of `Lexeme.spread`.
* `Expr.readsBack_spaced`, `Expr.readsBack_flatMap_chars`: any such text of the written expression
  reads back, and so does the text without blanks.
-/

namespace ReversePolish

/-! ## The tokens of lexemes -/

/-- The token of a lexeme, at offset zero. -/
def Lexeme.token? : Lexeme → Option Token
  | .token kind text => some ⟨kind, String.ofList text, 0⟩
  | .blank _ => none
  | .stray _ => none

namespace Scan

/-- The tokens of a scan are those of its lexemes, up to offsets. -/
theorem map_unplaced_ofLexemes (ls : List Lexeme) (offset : Nat) :
    (Scan.ofLexemes offset ls).tokens.map Token.unplaced =
      (ls.filterMap Lexeme.token?).map Token.unplaced := by
  induction ls generalizing offset with
  | nil => rfl
  | cons l ls ih =>
    cases l with
    | token kind text =>
      rw [Scan.ofLexemes, Scan.cons, List.map_cons, ih]
      rfl
    | blank run => exact ih _
    | stray c => exact ih _

theorem warnings_ofLexemes {ls : List Lexeme} (h : ∀ l ∈ ls, ∀ c, l ≠ .stray c) (offset : Nat) :
    (Scan.ofLexemes offset ls).warnings = [] := by
  induction ls generalizing offset with
  | nil => rfl
  | cons l ls ih =>
    obtain ⟨hFirst, hRest⟩ := List.forall_mem_cons.1 h
    cases l with
    | token kind text => exact ih hRest _
    | blank run => exact ih hRest _
    | stray c => exact absurd rfl (hFirst c)

end Scan

/-! ## Parentheses -/

/-- Where an expression stands: for itself, or as an operand. -/
inductive Place where
  | alone
  | left (parent : Op)
  | right (parent : Op)
  deriving DecidableEq, Repr

/-- The parentheses around an operator and its operands that cannot be left out: around a sum on the
left of a product, around a sum on the right of a sum, and around anything on the right of a
product. -/
def Place.needs : Place → Op → Bool
  | .alone, _ => false
  | .left parent, op => parent.rank == .product && op.rank == .sum
  | .right parent, op => parent.rank == .product || op.rank == .sum

/-- Parentheses around every operator and its operands. -/
def Place.always (_ : Place) (_ : Op) : Bool := true

/-- The level at which the tokens at the place are read. -/
def Place.rank : Place → Rank
  | .alone => .sum
  | .left parent => parent.rank
  | .right parent => if parent.rank = .sum then .product else .factor

/-- The lexemes, in parentheses or not. -/
def Lexeme.enclosed (brackets : Bool) (ls : List Lexeme) : List Lexeme :=
  if brackets then .token .paren ['('] :: (ls ++ [.token .paren [')']]) else ls

namespace Expr

/-- The lexemes of the expression at a place, with parentheses around the operators that `brackets`
picks. -/
def written (brackets : Place → Op → Bool) : Place → Expr → List Lexeme
  | _, .leaf text _ => [.token .number text.toList]
  | place, .binary op lhs rhs _ =>
    Lexeme.enclosed (brackets place op)
      (lhs.written brackets (.left op) ++
        .token .operator op.symbol.toList :: rhs.written brackets (.right op))

/-! ## The lexemes stand apart -/

theorem proper_operator (op : Op) : (Lexeme.token .operator op.symbol.toList).Proper := by
  cases op
  · exact ⟨'+', rfl, rfl⟩
  · exact ⟨'-', rfl, rfl⟩
  · exact ⟨'*', rfl, rfl⟩
  · exact ⟨'/', rfl, rfl⟩

/-- A number runs up to the next lexeme, so that what follows must not start with a digit. -/
theorem apart_written (brackets : Place → Op → Bool) {e : Expr} (h : e.Numeric) (place : Place)
    {rest : List Lexeme} (hRest : Lexeme.Apart rest)
    (hEnd : ∀ c ∈ (rest.flatMap Lexeme.chars).head?, c.isDigit = false) :
    Lexeme.Apart (e.written brackets place ++ rest) := by
  induction e generalizing place rest with
  | leaf text offset => exact ⟨Text.isNumeral_iff.1 h, hEnd, hRest⟩
  | binary op lhs rhs offset ihLhs ihRhs =>
    -- With or without parentheses, the operands and the operator stand before something.
    have hInner : ∀ {behind : List Lexeme}, Lexeme.Apart behind →
        (∀ c ∈ (behind.flatMap Lexeme.chars).head?, c.isDigit = false) →
        Lexeme.Apart (lhs.written brackets (.left op) ++
          .token .operator op.symbol.toList :: (rhs.written brackets (.right op) ++ behind)) := by
      intro behind hBehind hDigit
      have hRhs := ihRhs h.2 (.right op) hBehind hDigit
      have hOperator : Lexeme.Apart (.token .operator op.symbol.toList ::
          (rhs.written brackets (.right op) ++ behind)) := ⟨proper_operator op, trivial, hRhs⟩
      exact ihLhs h.1 (.left op) hOperator (by cases op <;> simp [Lexeme.chars, Op.symbol])
    unfold written Lexeme.enclosed
    by_cases hBrackets : brackets place op = true
    · have hClose : Lexeme.Apart (.token .paren [')'] :: rest) :=
        ⟨⟨')', rfl, rfl⟩, trivial, hRest⟩
      have hOpen : Lexeme.Apart (.token .paren ['('] :: (lhs.written brackets (.left op) ++
          .token .operator op.symbol.toList ::
            (rhs.written brackets (.right op) ++ .token .paren [')'] :: rest))) :=
        ⟨⟨'(', rfl, rfl⟩, trivial, hInner hClose (by simp [Lexeme.chars])⟩
      rw [if_pos hBrackets]
      simpa using hOpen
    · rw [if_neg hBrackets]
      simpa using hInner hRest hEnd

theorem isToken_of_mem_written {brackets : Place → Op → Bool} {e : Expr} {place : Place}
    {l : Lexeme} (h : l ∈ e.written brackets place) : ∃ kind text, l = .token kind text := by
  induction e generalizing place with
  | leaf text offset => exact ⟨.number, text.toList, List.mem_singleton.1 h⟩
  | binary op lhs rhs offset ihLhs ihRhs =>
    have hInner : l ∈ lhs.written brackets (.left op) ++
        .token .operator op.symbol.toList :: rhs.written brackets (.right op) →
        ∃ kind text, l = .token kind text := by
      intro hl
      rcases List.mem_append.1 hl with hl | hl
      · exact ihLhs hl
      · rcases List.mem_cons.1 hl with rfl | hl
        · exact ⟨.operator, _, rfl⟩
        · exact ihRhs hl
    unfold written Lexeme.enclosed at h
    split at h
    · rcases List.mem_cons.1 h with rfl | h
      · exact ⟨.paren, _, rfl⟩
      · rcases List.mem_append.1 h with h | h
        · exact hInner h
        · exact ⟨.paren, _, List.mem_singleton.1 h⟩
    · exact hInner h

end Expr

/-! ## The lexemes spell the expression -/

theorem Op.rank_eq (op : Op) : op.rank = .sum ∨ op.rank = .product := by
  cases op
  · exact Or.inl rfl
  · exact Or.inl rfl
  · exact Or.inr rfl
  · exact Or.inr rfl

theorem Derives.of_factor {l : List Token} {a : Expr} (h : Derives .factor l a) (rank : Rank) :
    Derives rank l a := by
  cases rank with
  | sum => exact .ofProduct (.ofFactor h)
  | product => exact .ofFactor h
  | factor => exact h

theorem Place.rank_right (op : Op) : (Place.right op).rank = op.rank.operand := by
  cases op <;> rfl

/-- Without the parentheses that it does not need, an operator is read at the level of its place. -/
theorem Derives.of_not_needs {place : Place} {op : Op} {l : List Token} {a : Expr}
    (h : Derives op.rank l a) (hNeeds : place.needs op = false) : Derives place.rank l a := by
  rcases op.rank_eq with hOp | hOp
  · rw [hOp] at h
    cases place with
    | alone => exact h
    | left parent =>
      rcases parent.rank_eq with hParent | hParent
      · simpa [Place.rank, hParent] using h
      · simp [Place.needs, hOp, hParent] at hNeeds
    | right parent => simp [Place.needs, hOp] at hNeeds
  · rw [hOp] at h
    cases place with
    | alone => exact .ofProduct h
    | left parent =>
      rcases parent.rank_eq with hParent | hParent
      · simpa [Place.rank, hParent] using Derives.ofProduct h
      · simpa [Place.rank, hParent] using h
    | right parent =>
      rcases parent.rank_eq with hParent | hParent
      · simpa [Place.rank, hParent] using h
      · simp [Place.needs, hParent] at hNeeds

namespace Expr

theorem derives_written {brackets : Place → Op → Bool}
    (hBrackets : ∀ place op, place.needs op = true → brackets place op = true) (e : Expr)
    (place : Place) :
    Derives place.rank ((e.written brackets place).filterMap Lexeme.token?) e.unplaced := by
  induction e generalizing place with
  | leaf text offset =>
    have hNumber : Derives .factor [⟨.number, text, 0⟩] (.leaf text 0) := .number rfl
    simpa [written, Lexeme.token?, unplaced] using hNumber.of_factor place.rank
  | binary op lhs rhs offset ihLhs ihRhs =>
    have hSymbol : (⟨.operator, op.symbol, 0⟩ : Token).isOperator op.symbol = true := by
      simp [Token.isOperator]
    have hRhs := ihRhs (.right op)
    rw [Place.rank_right] at hRhs
    have hInner := (ihLhs (.left op)).operator rfl hSymbol hRhs
    unfold written Lexeme.enclosed
    by_cases hPlace : brackets place op = true
    · have hSum : Derives Place.alone.rank _ _ := hInner.of_not_needs rfl
      have hParen : Derives .factor (⟨.paren, "(", 0⟩ :: (_ ++ [⟨.paren, ")", 0⟩])) _ :=
        .paren rfl hSum rfl
      rw [if_pos hPlace]
      simpa [Lexeme.token?, unplaced] using hParen.of_factor place.rank
    · have hNeeds : place.needs op = false :=
        Bool.eq_false_iff.2 fun hNeeds => hPlace (hBrackets place op hNeeds)
      rw [if_neg hPlace]
      simpa [Lexeme.token?, unplaced] using hInner.of_not_needs hNeeds

end Expr

/-! ## Blanks between the lexemes -/

namespace Lexeme

/-- The text of the lexemes with `gaps 0` before the first, `gaps 1` before the second, and so on,
the last gap behind all of them. -/
def spaced (gaps : Nat → List Char) : List Lexeme → List Char
  | [] => gaps 0
  | l :: ls => gaps 0 ++ (l.chars ++ spaced (fun i => gaps (i + 1)) ls)

/-- A run of blanks as lexemes: none if it is empty. -/
def gap (run : List Char) : List Lexeme := if run = [] then [] else [.blank run]

/-- The lexemes with the gaps among them. -/
def spread (gaps : Nat → List Char) : List Lexeme → List Lexeme
  | [] => gap (gaps 0)
  | l :: ls => gap (gaps 0) ++ l :: spread (fun i => gaps (i + 1)) ls

theorem flatMap_chars_gap (run : List Char) : (gap run).flatMap chars = run := by
  unfold gap
  split
  · rename_i hNil
    rw [hNil]
    rfl
  · simp [chars]

theorem flatMap_chars_spread (gaps : Nat → List Char) (ls : List Lexeme) :
    (spread gaps ls).flatMap chars = spaced gaps ls := by
  induction ls generalizing gaps with
  | nil => exact flatMap_chars_gap (gaps 0)
  | cons l ls ih =>
    rw [spread, spaced, List.flatMap_append, List.flatMap_cons, flatMap_chars_gap, ih]

theorem spaced_nil (ls : List Lexeme) : spaced (fun _ => []) ls = ls.flatMap chars := by
  induction ls with
  | nil => rfl
  | cons l ls ih => rw [spaced, ih, List.nil_append, List.flatMap_cons]

theorem filterMap_token?_gap (run : List Char) : (gap run).filterMap token? = [] := by
  unfold gap
  split
  · rfl
  · rfl

theorem filterMap_token?_spread (gaps : Nat → List Char) (ls : List Lexeme) :
    (spread gaps ls).filterMap token? = ls.filterMap token? := by
  induction ls generalizing gaps with
  | nil => exact filterMap_token?_gap (gaps 0)
  | cons l ls ih =>
    rw [spread, List.filterMap_append, filterMap_token?_gap, List.nil_append, List.filterMap_cons,
      List.filterMap_cons, ih]

theorem apart_gap {run : List Char} (hBlank : ∀ c ∈ run, Text.isBlank c = true)
    {rest : List Lexeme} (hRest : Apart rest)
    (hEnd : ∀ c ∈ (rest.flatMap chars).head?, Text.isBlank c = false) :
    Apart (gap run ++ rest) := by
  unfold gap
  by_cases hNil : run = []
  · rw [if_pos hNil]
    exact hRest
  · rw [if_neg hNil]
    exact ⟨⟨hNil, hBlank⟩, hEnd, hRest⟩

/-- What ends before lexemes ends before a gap as well, because no blank is a digit. -/
theorem endsBefore_spaced {kind : Token.Kind} {text : List Char} {gaps : Nat → List Char}
    {ls : List Lexeme} (h : (Lexeme.token kind text).EndsBefore (ls.flatMap chars))
    (hApart : Apart ls) (hBlank : ∀ c ∈ gaps 0, Text.isBlank c = true) :
    (Lexeme.token kind text).EndsBefore (spaced gaps ls) := by
  cases kind with
  | operator => trivial
  | paren => trivial
  | number =>
    intro c hc
    cases hGap : gaps 0 with
    | nil =>
      -- Nothing is inserted here, and the next character is the one that stood here before.
      refine h c ?_
      cases ls with
      | nil =>
        rw [spaced, hGap] at hc
        cases hc
      | cons l ls =>
        have hSome := chars_ne_nil_of_proper hApart.1
        rw [spaced, hGap, List.nil_append, List.head?_append_of_ne_nil _ hSome] at hc
        rw [List.flatMap_cons, List.head?_append_of_ne_nil _ hSome]
        exact hc
    | cons d run =>
      have hHead : d = c := by
        cases ls with
        | nil => simpa [spaced, hGap] using hc
        | cons l ls => simpa [spaced, hGap] using hc
      have hNext : Text.isBlank c = true := hBlank c (by simp [hGap, hHead])
      refine Bool.eq_false_iff.2 fun hDigit => ?_
      rw [isBlank_of_isDigit hDigit] at hNext
      cases hNext

theorem apart_spread {ls : List Lexeme} (h : Apart ls)
    (hTokens : ∀ l ∈ ls, ∃ kind text, l = .token kind text) {gaps : Nat → List Char}
    (hBlank : ∀ i, ∀ c ∈ gaps i, Text.isBlank c = true) : Apart (spread gaps ls) := by
  induction ls generalizing gaps with
  | nil => simpa [spread] using @apart_gap (gaps 0) (hBlank 0) [] trivial (by simp)
  | cons l ls ih =>
    obtain ⟨hFirst, hRest⟩ := List.forall_mem_cons.1 hTokens
    obtain ⟨kind, text, rfl⟩ := hFirst
    obtain ⟨hProper, hEnds, hApart⟩ := h
    have hLater : ∀ i, ∀ c ∈ gaps (i + 1), Text.isBlank c = true := fun i => hBlank (i + 1)
    refine apart_gap (hBlank 0) ⟨hProper, ?_, ih hApart hRest hLater⟩ ?_
    · rw [flatMap_chars_spread]
      exact endsBefore_spaced hEnds hApart (hLater 0)
    · intro c hc
      rw [List.flatMap_cons, List.head?_append_of_ne_nil _ (chars_ne_nil_of_proper hProper)] at hc
      exact isBlank_of_mem_token hProper (List.mem_of_head? hc)

theorem not_stray_of_mem_spread {gaps : Nat → List Char} {ls : List Lexeme}
    (hTokens : ∀ l ∈ ls, ∃ kind text, l = .token kind text) :
    ∀ l ∈ spread gaps ls, ∀ c, l ≠ .stray c := by
  have hGap : ∀ run : List Char, ∀ l ∈ gap run, ∀ c, l ≠ .stray c := by
    intro run l hl c
    unfold gap at hl
    split at hl
    · cases hl
    · rw [List.mem_singleton.1 hl]
      exact Lexeme.noConfusion
  induction ls generalizing gaps with
  | nil => exact hGap (gaps 0)
  | cons m ls ih =>
    obtain ⟨hFirst, hRest⟩ := List.forall_mem_cons.1 hTokens
    obtain ⟨kind, text, rfl⟩ := hFirst
    intro l hl c
    rcases List.mem_append.1 hl with hl | hl
    · exact hGap (gaps 0) l hl c
    · rcases List.mem_cons.1 hl with rfl | hl
      · exact Lexeme.noConfusion
      · exact ih hRest l hl c

end Lexeme

/-! ## Reading back -/

namespace Expr

/-- The source holds the expression: it has no warnings, and its tokens are read as the expression,
up to offsets. -/
def ReadsBack (e : Expr) (source : String) : Prop :=
  (Scan.ofSource source).warnings = [] ∧
    ∃ a, ofTokens (Scan.ofSource source).tokens = .ok a ∧ a.unplaced = e.unplaced

theorem readsBack_spaced {brackets : Place → Op → Bool}
    (hBrackets : ∀ place op, place.needs op = true → brackets place op = true) {e : Expr}
    (h : e.Numeric) {gaps : Nat → List Char}
    (hBlank : ∀ i, ∀ c ∈ gaps i, Text.isBlank c = true) :
    e.ReadsBack (String.ofList (Lexeme.spaced gaps (e.written brackets .alone))) := by
  have hTokens : ∀ l ∈ e.written brackets .alone, ∃ kind text, l = .token kind text :=
    fun _ hl => isToken_of_mem_written hl
  have hApart : Lexeme.Apart (e.written brackets .alone) := by
    simpa using @apart_written brackets e h .alone [] trivial (by simp)
  have hScan : Scan.ofSource (String.ofList (Lexeme.spaced gaps (e.written brackets .alone))) =
      Scan.ofLexemes 0 (Lexeme.spread gaps (e.written brackets .alone)) := by
    apply Scan.ofSource_eq_ofLexemes (Lexeme.apart_spread hApart hTokens hBlank)
    rw [Lexeme.flatMap_chars_spread, String.toList_ofList]
  have hSame := Scan.map_unplaced_ofLexemes (Lexeme.spread gaps (e.written brackets .alone)) 0
  rw [Lexeme.filterMap_token?_spread] at hSame
  obtain ⟨a, hDerives, hExpr⟩ := derives_of_map_unplaced (e.derives_written hBrackets .alone) hSame
  unfold ReadsBack
  rw [hScan]
  refine ⟨Scan.warnings_ofLexemes (Lexeme.not_stray_of_mem_spread hTokens) 0, a, ?_, ?_⟩
  · exact ofTokens_of_derives hDerives
  · rw [hExpr, unplaced_unplaced]

theorem readsBack_flatMap_chars {brackets : Place → Op → Bool}
    (hBrackets : ∀ place op, place.needs op = true → brackets place op = true) {e : Expr}
    (h : e.Numeric) :
    e.ReadsBack (String.ofList ((e.written brackets .alone).flatMap Lexeme.chars)) := by
  rw [← Lexeme.spaced_nil]
  exact readsBack_spaced hBrackets h (by simp)

/-- **Writing and reading back.** An expression with numerals for its numbers reads back from its
text, whether it is written with the needed parentheses alone or with all of them, and with any
blanks around the lexemes. -/
theorem readsBack_written {e : Expr} (h : e.Numeric) {brackets : Place → Op → Bool}
    (hBrackets : brackets = Place.needs ∨ brackets = Place.always) :
    e.ReadsBack (String.ofList ((e.written brackets .alone).flatMap Lexeme.chars)) ∧
      ∀ gaps : Nat → List Char, (∀ i, ∀ c ∈ gaps i, Text.isBlank c = true) →
        e.ReadsBack (String.ofList (Lexeme.spaced gaps (e.written brackets .alone))) := by
  have hNeeded : ∀ place op, Place.needs place op = true → brackets place op = true := by
    intro place op hNeeds
    rcases hBrackets with rfl | rfl
    · exact hNeeds
    · rfl
  exact ⟨readsBack_flatMap_chars hNeeded h, fun gaps hBlank => readsBack_spaced hNeeded h hBlank⟩

/-- A difference whose right operand is a product with a difference on its left. -/
def nested : Expr :=
  .binary .sub (.leaf "8" 0)
    (.binary .mul (.binary .sub (.leaf "03" 0) (.leaf "2" 0) 0) (.leaf "4" 0) 0) 0

/-- One of the three operators needs parentheses, and a wide blank in every gap does no harm. -/
theorem readsBack_written_nested :
    nested.Numeric ∧ nested.ReadsBack "8-(03-2)*4" ∧ nested.ReadsBack "(8-((03-2)*4))" ∧
      nested.ReadsBack
        "\u30008\u3000-\u3000(\u300003\u3000-\u30002\u3000)\u3000*\u30004\u3000" := by
  have hNumeric : nested.Numeric := by
    simp only [nested, Numeric]
    decide
  obtain ⟨hPlain, hSpaced⟩ := readsBack_written hNumeric (Or.inl rfl)
  have hBlank : ∀ c ∈ ['\u3000'], Text.isBlank c = true := by
    intro c hc
    rw [List.mem_singleton.1 hc]
    decide
  refine ⟨hNumeric, hPlain, (readsBack_written hNumeric (Or.inr rfl)).1, ?_⟩
  exact hSpaced (fun _ => ['\u3000']) fun _ => hBlank

end Expr

end ReversePolish
