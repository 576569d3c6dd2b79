import Mathlib
import ReversePolish.Proofs.Joining
import ReversePolish.Proofs.Relocation

/-!
# Characters that make no difference

A skipped character (`Text.isSkipped`) belongs to no token. What a source compiles to does not
depend on which skipped characters stand where, but for one thing: between two digits, any number of
them ends the one number and starts another.

* `Text.skeleton`: a text with its runs of skipped characters collapsed to one separator each, and
  with only those separators kept that stand between two digits.
* `Scan.unplacedTokens_collapse`, `Scan.unplacedTokens_prune`: neither step changes the tokens.
* `compile_of_skeleton_eq`: sources with the same skeleton compile alike.
-/

namespace ReversePolish

namespace Text

/-- What stands for a run of skipped characters. -/
def separator : Char := ' '

/-- The text with a separator for every maximal run of skipped characters. -/
def collapse : List Char → List Char
  | [] => []
  | c :: cs =>
    if isSkipped c then
      if cs.head?.any isSkipped then collapse cs else separator :: collapse cs
    else c :: collapse cs

/-- The text without the separators that are not between two digits; `before` is the character in
front of the text. -/
def prune (before : Option Char) : List Char → List Char
  | [] => []
  | c :: cs =>
    if c = separator ∧ ¬ (before.any Char.isDigit ∧ cs.head?.any Char.isDigit) then
      prune (some c) cs
    else c :: prune (some c) cs

/-- What is left of a text once the skipped characters that make no difference are gone. -/
def skeleton (text : List Char) : List Char := prune none (collapse text)

/-! ## Collapsed texts -/

theorem head?_collapse (text : List Char) :
    (collapse text).head? = text.head?.map fun c => if isSkipped c then separator else c := by
  induction text with
  | nil => rfl
  | cons c cs ih =>
    rw [collapse]
    by_cases hSkipped : isSkipped c = true
    · rw [if_pos hSkipped]
      cases cs with
      | nil => simp [hSkipped]
      | cons d ds =>
        by_cases hNext : isSkipped d = true
        · simpa [hSkipped, hNext] using ih
        · simp [hSkipped, hNext]
    · simp [hSkipped]

/-- No separator stands next to another one. -/
def Collapsed (text : List Char) : Prop :=
  text.IsChain fun c d => c = separator → d ≠ separator

theorem collapsed_collapse (text : List Char) : Collapsed (collapse text) := by
  induction text with
  | nil => exact List.IsChain.nil
  | cons c cs ih =>
    have hKept : ∀ d : Char, isSkipped d = false → d ≠ separator := by
      rintro d hd rfl
      cases hd
    rw [collapse]
    by_cases hSkipped : isSkipped c = true
    · rw [if_pos hSkipped]
      split
      · exact ih
      · rename_i hNext
        refine List.isChain_cons.2 ⟨fun d hd _ => ?_, ih⟩
        -- What follows the run is kept as it is.
        rw [head?_collapse] at hd
        cases hHead : cs.head? with
        | none =>
          rw [hHead] at hd
          cases hd
        | some e =>
          have hLast : isSkipped e = false := by simpa [hHead] using hNext
          have hSame : e = d := by simpa [hHead, hLast] using hd
          exact hSame ▸ hKept e hLast
    · rw [if_neg hSkipped]
      refine List.isChain_cons.2 ⟨fun d _ hc => ?_, ih⟩
      exact absurd hc (hKept c (by simpa using hSkipped))

end Text

/-! ## The tokens stay -/

namespace Scan

open Text (isSkipped separator collapse prune skeleton)

theorem unplacedTokens_cons {c : Char} (h : isSkipped c = true) (cs : List Char) :
    unplacedTokens (c :: cs) = unplacedTokens cs := by
  have hDigit := Text.isDigit_of_isSkipped h
  have hToken : ∀ s, (cons 0 (Lexeme.first c []).1 s).tokens = s.tokens := by
    intro s
    simp only [isSkipped, Bool.not_eq_true', Bool.or_eq_false_iff] at h
    by_cases hBlank : Text.isBlank c = true
    · simp [Lexeme.first, h, hBlank, cons]
    · simp [Lexeme.first, h, hBlank, cons]
  rw [unplacedTokens, ofChars_cons hDigit, hToken, map_unplaced_ofChars]

/-- A skipped character cuts the tokens in two. -/
theorem unplacedTokens_append_cons {c : Char} (h : isSkipped c = true) (front cs : List Char) :
    unplacedTokens (front ++ c :: cs) = unplacedTokens front ++ unplacedTokens cs := by
  have hSeparate : Separate front (c :: cs) := by
    apply separate_of_head
    rintro d ⟨⟩
    exact Text.isDigit_of_isSkipped h
  rw [unplacedTokens_append hSeparate, unplacedTokens_cons h]

theorem unplacedTokens_collapse (front text : List Char) :
    unplacedTokens (front ++ collapse text) = unplacedTokens (front ++ text) := by
  induction text generalizing front with
  | nil => rfl
  | cons c cs ih =>
    rw [collapse]
    by_cases hSkipped : isSkipped c = true
    · rw [if_pos hSkipped, unplacedTokens_append_cons hSkipped]
      split
      · rename_i hNext
        have hSeparate : Separate front cs := by
          apply separate_of_head
          intro d hd
          exact Text.isDigit_of_isSkipped (by simpa [Option.mem_def.1 hd] using hNext)
        rw [ih, unplacedTokens_append hSeparate]
      · have hRest := ih []
        rw [unplacedTokens_append_cons (by rfl), ← List.nil_append (collapse cs), hRest]
        rfl
    · have hRest := ih (front ++ [c])
      rw [if_neg hSkipped]
      simpa using hRest

theorem unplacedTokens_prune {text : List Char} (h : Text.Collapsed text) (before : Option Char)
    (front : List Char) (hFront : ∀ c ∈ front.getLast?, c.isDigit = true → before = some c) :
    unplacedTokens (front ++ prune before text) = unplacedTokens (front ++ text) := by
  induction text generalizing before front with
  | nil => rfl
  | cons c cs ih =>
    obtain ⟨hNext, hRest⟩ := List.isChain_cons.1 h
    rw [prune]
    split
    · rename_i hDropped
      obtain ⟨rfl, hBetween⟩ := hDropped
      -- What was before the separator and what is behind it are not both digits.
      have hSeparate : Separate front (prune (some separator) cs) := by
        intro c hc d hd hDigit
        cases cs with
        | nil => cases hd
        | cons e es =>
          have hKept : e ≠ separator := hNext e rfl rfl
          have hSame : e = d := by simpa [prune, hKept] using hd
          simpa [hFront c hc hDigit, hDigit, hSame] using hBetween
      have hPruned := ih hRest (some separator) [] (by simp)
      rw [List.nil_append, List.nil_append] at hPruned
      rw [unplacedTokens_append hSeparate, hPruned, unplacedTokens_append_cons (by rfl)]
    · have hKept := ih hRest (some c) (front ++ [c]) (by simp)
      simpa using hKept

theorem unplacedTokens_skeleton (text : List Char) :
    unplacedTokens (skeleton text) = unplacedTokens text := by
  have hPrune := unplacedTokens_prune (Text.collapsed_collapse text) none [] (by simp)
  exact hPrune.trans (unplacedTokens_collapse [] text)

end Scan

/-! ## Sources with the same skeleton -/

/-- **Skipped characters make no difference.** Sources with the same skeleton either both compile,
to the same classes and texts of tokens, the same outline and the same reverse Polish text, or are
both refused, at the same stage and with the same kind of error and the same message. -/
theorem compile_of_skeleton_eq {source other : String}
    (h : Text.skeleton source.toList = Text.skeleton other.toList) :
    (∃ c c', compile source = .ok c ∧ compile other = .ok c' ∧
        c.tokens.map (fun t => (t.kind, t.text)) = c'.tokens.map (fun t => (t.kind, t.text)) ∧
        c.tree = c'.tree ∧ c.rpn = c'.rpn) ∨
      ∃ e e', compile source = .error e ∧ compile other = .error e' ∧
        e.stage = e'.stage ∧ e.kind = e'.kind ∧ e.message = e'.message := by
  have hSame : (Scan.ofSource other).tokens.map Token.unplaced =
      (Scan.ofSource source).tokens.map Token.unplaced := by
    have hTokens := congrArg Scan.unplacedTokens h
    rw [Scan.unplacedTokens_skeleton, Scan.unplacedTokens_skeleton] at hTokens
    exact hTokens.symm
  have hLower := lower_of_map_unplaced hSame
  cases hSource : lower (Scan.ofSource source).tokens with
  | ok l =>
    rw [hSource] at hLower
    have hOther := mapError_eq_ok.1 hLower
    have hSpelled := congrArg (List.map fun t => (t.kind, t.text)) hSame
    rw [List.map_map, List.map_map] at hSpelled
    rw [compile_eq_map_lower, compile_eq_map_lower, hSource, hOther]
    exact Or.inl ⟨_, _, rfl, rfl, hSpelled.symm, rfl, rfl⟩
  | error e =>
    rw [hSource] at hLower
    obtain ⟨e', hOther, hError⟩ := mapError_eq_error.1 hLower
    obtain ⟨hKind, hMessage⟩ := Error.unplaced_eq_iff.1 hError.symm
    refine Or.inr
      ⟨e, e', compile_eq_error.2 hSource, compile_eq_error.2 hOther, ?_, hKind, hMessage⟩
    rw [Error.stage, Error.stage, hKind]

example : Text.skeleton "\ufeff( 7é+ 1 x0 )".toList = "(7+1 0)".toList := by decide

/-- A sum with a byte order mark, wide blanks and letters in it compiles like the plain one. Two
numbers are two numbers whatever stands between them, and not the same as one. -/
theorem compile_of_skeleton_eq_strays :
    (∃ c, compile "\ufeff( 7é +10 )\u3000/x3" = .ok c ∧ c.rpn = "7 10 + 3 /") ∧
      (∃ e, compile "1\u0085 é2" = .error e ∧ e.kind = .trailingTokens) ∧
      Text.skeleton "1x2".toList ≠ Text.skeleton "12".toList := by
  refine ⟨?_, ?_, by decide⟩
  · have hRead : Expr.ofTokens (Scan.ofSource "(7+10)/3").tokens = .ok (.binary .div
        (.binary .add (.leaf "7" 1) (.leaf "10" 3) 2) (.leaf "3" 7) 6) := by cbv
    have hPlain := compile_eq_ok.2 ⟨_, Expr.derives_of_ofTokens hRead, by cbv, rfl⟩
    have hSkeleton : Text.skeleton "(7+10)/3".toList =
        Text.skeleton "\ufeff( 7é +10 )\u3000/x3".toList := by decide
    rcases compile_of_skeleton_eq hSkeleton with ⟨c, c', hc, hc', -, -, hRpn⟩ | ⟨e, -, he, -⟩
    · rw [hPlain] at hc
      cases hc
      exact ⟨c', hc', hRpn.symm⟩
    · rw [hPlain] at he
      cases he
  · have hRead : compile "1x2" = .error (.trailingTokens ⟨.number, "2", 2⟩) := by cbv
    have hSkeleton : Text.skeleton "1x2".toList = Text.skeleton "1\u0085 é2".toList := by decide
    rcases compile_of_skeleton_eq hSkeleton with ⟨c, -, hc, -⟩ | ⟨e, e', he, he', -, hKind, -⟩
    · rw [hRead] at hc
      cases hc
    · rw [hRead] at he
      cases he
      exact ⟨e', he', hKind.symm⟩

end ReversePolish
