import Mathlib.Order.Bounds.Defs
import ReversePolish.Proofs.Counter

/-!
# Where tokens stop making sense

Tokens are viable if something can be put behind them that makes the whole spell an expression. An
error of the parsing stage is placed at the first token with which they are not viable any more,
and at the end of the tokens if there is no such token.

* `Counter.completion`: what can be put behind tokens, found from where the reader stands.
* `viable_iff_foldlM`: tokens are viable if and only if the reader takes all of them. So everything
  that can be said of their front is said by the reader's steps.
* `step_error_cases`, `finish_error_cases`: the errors of a step and of the end. A step that fails
  names its token, and the end names the end.
* `offset_of_ofTokens_error`: the place of an error is the end of the longest viable front.
-/

namespace ReversePolish

/-- The tokens are the front of some tokens that spell an expression. -/
def Viable (tokens : List Token) : Prop := ∃ rest e, Derives .sum (tokens ++ rest) e

namespace Counter

theorem run_append (eof : Nat) (c : Counter) (l r : List Token) :
    run eof c (l ++ r) = l.foldlM step c >>= fun next => run eof next r := by
  unfold run
  rw [List.foldlM_append, bind_assoc]

/-! ## Completing what is begun -/

/-- An operand if one has to come next, and then a closing parenthesis for each open one. -/
def completion : Counter → List Token
  | ⟨true, depth⟩ => ⟨.number, "0", 0⟩ :: List.replicate depth ⟨.paren, ")", 0⟩
  | ⟨false, depth⟩ => List.replicate depth ⟨.paren, ")", 0⟩

theorem run_close (eof depth : Nat) :
    run eof ⟨false, depth⟩ (List.replicate depth ⟨.paren, ")", 0⟩) = .ok () := by
  induction depth with
  | zero => rfl
  | succ depth ih =>
    rw [List.replicate_succ, run_cons]
    exact ih

theorem run_completion (eof : Nat) (c : Counter) : run eof c c.completion = .ok () := by
  obtain ⟨awaitsOperand, depth⟩ := c
  cases awaitsOperand with
  | false => exact run_close eof depth
  | true =>
    unfold completion
    rw [run_number rfl]
    exact run_close eof depth

/-! ## Viable tokens are those that the reader takes -/

theorem viable_iff_foldlM {tokens : List Token} :
    Viable tokens ↔ ∃ c, tokens.foldlM step start = .ok c := by
  constructor
  · rintro ⟨rest, e, hDerives⟩
    have hRun := run_of_ofTokens_ok (Expr.ofTokens_of_derives hDerives)
    rw [run_append] at hRun
    obtain ⟨c, hSteps, -⟩ := bind_eq_ok.1 hRun
    exact ⟨c, hSteps⟩
  · rintro ⟨c, hSteps⟩
    have hRun : run (Token.endOfAll (tokens ++ c.completion)) start (tokens ++ c.completion) =
        .ok () := by
      rw [run_append, hSteps]
      exact run_completion _ c
    obtain ⟨e, hTokens⟩ := exists_ofTokens_ok_of_run hRun
    exact ⟨c.completion, e, Expr.derives_of_ofTokens hTokens⟩

/-- No viable tokens go on behind the reader with a token that it refuses. -/
theorem not_viable_of_step_error {l r : List Token} {t : Token} {c : Counter} {err : Error}
    (hSteps : l.foldlM step start = .ok c) (hStep : step c t = .error err) :
    ¬ Viable (l ++ t :: r) := by
  rw [viable_iff_foldlM]
  rintro ⟨last, hLast⟩
  rw [List.foldlM_append, hSteps] at hLast
  have hGoesOn : (step c t >>= fun next => r.foldlM step next) = .ok last := hLast
  rw [hStep] at hGoesOn
  cases hGoesOn

/-! ## The places of errors -/

theorem step_error_cases {c : Counter} {t : Token} {err : Error} (h : step c t = .error err) :
    err = .unexpectedToken t ∨ err = .trailingTokens t ∨ err = .missingCloseParen t.offset := by
  obtain ⟨awaitsOperand, depth⟩ := c
  cases awaitsOperand with
  | true =>
    rw [step] at h
    split at h
    · cases h
    · split at h
      · cases h
      · exact Or.inl (Except.error.inj h).symm
  | false =>
    rw [step] at h
    split at h
    · cases h
    · split at h
      · exact Or.inr (Or.inl (Except.error.inj h).symm)
      · split at h
        · cases h
        · exact Or.inr (Or.inr (Except.error.inj h).symm)

theorem finish_error_cases {c : Counter} {eof : Nat} {err : Error}
    (h : finish eof c = .error err) :
    err = .unexpectedEnd eof ∨ err = .missingCloseParen eof := by
  obtain ⟨awaitsOperand, depth⟩ := c
  cases awaitsOperand with
  | true => exact Or.inl (Except.error.inj h).symm
  | false =>
    rw [finish] at h
    split at h
    · cases h
    · exact Or.inr (Except.error.inj h).symm

theorem offset_of_step_error {c : Counter} {t : Token} {err : Error} (h : step c t = .error err) :
    err.offset = t.offset := by
  rcases step_error_cases h with rfl | rfl | rfl <;> rfl

theorem offset_of_finish_error {c : Counter} {eof : Nat} {err : Error}
    (h : finish eof c = .error err) : err.offset = eof := by
  rcases finish_error_cases h with rfl | rfl <;> rfl

/-- Where the reader refuses tokens, there is a first token that it refuses. -/
theorem exists_step_error {tokens : List Token} {c : Counter} {err : Error}
    (h : tokens.foldlM step c = .error err) :
    ∃ l t r next, tokens = l ++ t :: r ∧ l.foldlM step c = .ok next ∧ step next t = .error err := by
  induction tokens generalizing c with
  | nil => cases h
  | cons t tokens ih =>
    rw [List.foldlM_cons] at h
    cases hStep : step c t with
    | error err' =>
      rw [hStep] at h
      cases h
      exact ⟨[], t, tokens, c, rfl, rfl, hStep⟩
    | ok c' =>
      rw [hStep] at h
      obtain ⟨l, u, r, next, rfl, hSteps, hError⟩ := ih h
      refine ⟨t :: l, u, r, next, rfl, ?_, hError⟩
      rw [List.foldlM_cons, hStep]
      exact hSteps

end Counter

/-! ## The longest viable front -/

/-- The lengths of the viable fronts of the tokens. -/
def viableLengths (tokens : List Token) : Set Nat :=
  {k | k ≤ tokens.length ∧ Viable (tokens.take k)}

theorem isGreatest_of_step_error {l r : List Token} {t : Token} {c : Counter} {err : Error}
    (hSteps : l.foldlM Counter.step Counter.start = .ok c) (hStep : c.step t = .error err) :
    IsGreatest (viableLengths (l ++ t :: r)) l.length := by
  have hFront : Viable ((l ++ t :: r).take l.length) := by
    rw [List.take_left]
    exact Counter.viable_iff_foldlM.2 ⟨c, hSteps⟩
  refine ⟨⟨by simp, hFront⟩, ?_⟩
  rintro j ⟨-, hViable⟩
  refine Nat.le_of_not_lt fun hLong => ?_
  -- A longer front holds the refused token.
  obtain ⟨m, rfl⟩ : ∃ m, j = l.length + (m + 1) := ⟨j - l.length - 1, by omega⟩
  rw [List.take_length_add_append, List.take_succ_cons] at hViable
  exact Counter.not_viable_of_step_error hSteps hStep hViable

theorem isGreatest_of_viable {tokens : List Token} (h : Viable tokens) :
    IsGreatest (viableLengths tokens) tokens.length := by
  refine ⟨⟨Nat.le_refl _, ?_⟩, fun j hj => hj.1⟩
  rw [List.take_length]
  exact h

/-- Unless it passes the greatest offset, the end of the tokens is a plain sum. -/
theorem Token.endOfAll_eq {tokens : List Token}
    (h : ∀ t ∈ tokens.getLast?, t.offset + t.text.utf8ByteSize < Text.offsetLimit) :
    Token.endOfAll tokens = tokens.getLast?.elim 0 fun t => t.offset + t.text.utf8ByteSize := by
  unfold Token.endOfAll
  cases hLast : tokens.getLast? with
  | none => rfl
  | some t => exact Text.advance_of_lt (h t hLast)

/-- **The first impossible token.** An error of the parsing stage is placed at the token behind the
longest viable front, and just past the last token if the tokens are viable as a whole. -/
theorem offset_of_ofTokens_error {tokens : List Token} {err : Error}
    (h : Expr.ofTokens tokens = .error err)
    (hEnd : ∀ t ∈ tokens.getLast?, t.offset + t.text.utf8ByteSize < Text.offsetLimit) :
    ∃ k, IsGreatest (viableLengths tokens) k ∧
      (∀ t, tokens[k]? = some t → err.offset = t.offset) ∧
      (k = tokens.length →
        err.offset = tokens.getLast?.elim 0 fun t => t.offset + t.text.utf8ByteSize) := by
  have hRun := Counter.run_of_ofTokens_error h
  unfold Counter.run at hRun
  cases hSteps : tokens.foldlM Counter.step Counter.start with
  | error err' =>
    rw [hSteps] at hRun
    cases hRun
    obtain ⟨l, t, r, c, rfl, hFront, hStep⟩ := Counter.exists_step_error hSteps
    refine ⟨l.length, isGreatest_of_step_error hFront hStep, ?_, fun hAll => by simp at hAll⟩
    intro u hu
    have hToken : t = u := by simpa using hu
    rw [← hToken, Counter.offset_of_step_error hStep]
  | ok c =>
    rw [hSteps] at hRun
    have hViable := Counter.viable_iff_foldlM.2 ⟨c, hSteps⟩
    refine ⟨tokens.length, isGreatest_of_viable hViable, fun t ht => by simp at ht, fun _ => ?_⟩
    rw [Counter.offset_of_finish_error hRun, Token.endOfAll_eq hEnd]

/-- An operator of unknown spelling between two numbers, in a parenthesis that never closes. -/
def remainder : List Token :=
  [⟨.paren, "(", 0⟩, ⟨.number, "1", 4⟩, ⟨.operator, "%", 7⟩, ⟨.number, "2", 9⟩]

/-- The operator is the first impossible token, because a known one could stand in its place. -/
theorem offset_of_ofTokens_error_remainder :
    Expr.ofTokens remainder = .error (.missingCloseParen 7) ∧
      IsGreatest (viableLengths remainder) 2 := by
  have hError : Expr.ofTokens remainder = .error (.missingCloseParen 7) :=
    Counter.ofTokens_error_of_run rfl
  obtain ⟨k, hGreatest, hToken, hEnd⟩ := offset_of_ofTokens_error hError (by decide)
  have hLe : k ≤ 4 := hGreatest.1.1
  have hTwo : k = 2 := by
    rcases (by omega : k = 0 ∨ k = 1 ∨ k = 2 ∨ k = 3 ∨ k = 4) with rfl | rfl | rfl | rfl | rfl
    · cases hToken _ rfl
    · cases hToken _ rfl
    · rfl
    · cases hToken _ rfl
    · cases hEnd rfl
  exact ⟨hError, hTwo ▸ hGreatest⟩

end ReversePolish
