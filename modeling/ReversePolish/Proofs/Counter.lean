import ReversePolish.Proofs.Parsing

/-!
# Reading tokens with a counter

A reader without a call stack. It goes over the tokens once, from left to right, and keeps no more
than whether an operand has to come next and how many parentheses are open. It builds no
expression, but it accepts and refuses like the rules of `Expr.Parser`, with the same errors.

* `Counter.step`, `Counter.finish`: what the reader does with a token, and with the end of the
  tokens.
* `Counter.Follows`: a rule and the reader go the same way up to where the rule stops.
* `Counter.follows_rule`: every rule does, at any depth. The depth is not changed on the way,
  because a rule leaves a parenthesis open only if it fails.
* `Counter.map_ofTokens_eq_run`: so the whole tokens have the same outcome.
-/

namespace ReversePolish

/-- A token that spells one of the four operators. -/
def Token.spellsOperator (t : Token) : Bool :=
  t.isOperator "+" || t.isOperator "-" || t.isOperator "*" || t.isOperator "/"

namespace Token

theorem spellsOperator_of_isOperator {t : Token} {op : Op} (h : t.isOperator op.symbol = true) :
    t.spellsOperator = true := by
  have hText := (isOperator_iff.1 h).2
  cases op <;> simp [spellsOperator, isOperator, (isOperator_iff.1 h).1, hText, Op.symbol]

/-- A sum takes all of the operators, so that it stops at nothing but other tokens. -/
theorem spellsOperator_eq_false {t : Token} (h : Rank.sum.StopsAt (some t)) :
    t.spellsOperator = false := by
  have hAdd := h t rfl .add (by decide)
  have hSub := h t rfl .sub (by decide)
  have hMul := h t rfl .mul (by decide)
  have hDiv := h t rfl .div (by decide)
  simp only [Op.symbol] at hAdd hSub hMul hDiv
  rw [spellsOperator, hAdd, hSub, hMul, hDiv]
  rfl

end Token

/-- Where the reader stands: whether an operand has to come next, and how many parentheses are
open. -/
structure Counter where
  awaitsOperand : Bool
  depth : Nat
  deriving DecidableEq, Repr

namespace Counter

/-- An operand has to come first, and nothing is open. -/
def start : Counter := ⟨true, 0⟩

/-- Takes one token. -/
def step : Counter → Token → Except Error Counter
  | ⟨true, depth⟩, t =>
    if t.kind = .number then .ok ⟨false, depth⟩
    else if t.isParen "(" then .ok ⟨true, depth + 1⟩
    else .error (.unexpectedToken t)
  | ⟨false, depth⟩, t =>
    if t.spellsOperator then .ok ⟨true, depth⟩
    else if depth = 0 then .error (.trailingTokens t)
    else if t.isParen ")" then .ok ⟨false, depth - 1⟩
    else .error (.missingCloseParen t.offset)

/-- Takes the end of the tokens, which is at offset `eof`. -/
def finish (eof : Nat) : Counter → Except Error Unit
  | ⟨true, _⟩ => .error (.unexpectedEnd eof)
  | ⟨false, depth⟩ => if depth = 0 then .ok () else .error (.missingCloseParen eof)

/-- Takes the tokens in order and then their end. -/
def run (eof : Nat) (c : Counter) (tokens : List Token) : Except Error Unit := do
  let last ← tokens.foldlM step c
  finish eof last

theorem run_cons (eof : Nat) (c : Counter) (t : Token) (tokens : List Token) :
    run eof c (t :: tokens) = step c t >>= fun next => run eof next tokens := by
  unfold run
  rw [List.foldlM_cons, bind_assoc]

section Runs

variable {eof depth : Nat} {t : Token} {tokens : List Token}

theorem run_number (h : t.kind = .number) :
    run eof ⟨true, depth⟩ (t :: tokens) = run eof ⟨false, depth⟩ tokens := by
  rw [run_cons, step, if_pos h]
  rfl

theorem run_open (h : t.isParen "(" = true) :
    run eof ⟨true, depth⟩ (t :: tokens) = run eof ⟨true, depth + 1⟩ tokens := by
  rw [run_cons, step, if_neg (Token.kind_ne_number_of_isParen h), if_pos h]
  rfl

theorem run_unexpected (hKind : t.kind ≠ .number) (hOpen : ¬ t.isParen "(" = true) :
    run eof ⟨true, depth⟩ (t :: tokens) = .error (.unexpectedToken t) := by
  rw [run_cons, step, if_neg hKind, if_neg hOpen]
  rfl

theorem run_operator {op : Op} (h : t.isOperator op.symbol = true) :
    run eof ⟨false, depth⟩ (t :: tokens) = run eof ⟨true, depth⟩ tokens := by
  rw [run_cons, step, if_pos (Token.spellsOperator_of_isOperator h)]
  rfl

theorem run_trailing (h : Rank.sum.StopsAt (some t)) :
    run eof ⟨false, 0⟩ (t :: tokens) = .error (.trailingTokens t) := by
  simp [run_cons, step, Token.spellsOperator_eq_false h, bind, Except.bind]

end Runs

/-! ## A rule and the reader go the same way -/

open ReversePolish.Expr

/-- The outcome of the reader, which may depend on the depth, is the error of the rule. If the rule
succeeds, it is the outcome behind the operand that the rule has read, at the same depth. -/
def Follows (eof : Nat) (outcome : Nat → Except Error Unit) {n : Nat} :
    Except Error (Parsed n) → Prop
  | .ok p => ∀ depth, outcome depth = run eof ⟨false, depth⟩ p.rest
  | .error err => ∀ depth, outcome depth = .error err

theorem Follows.bind {eof m n : Nat} {outcome : Nat → Except Error Unit}
    {x : Except Error (Parsed m)} {f : Parsed m → Except Error (Parsed n)}
    (hx : Follows eof outcome x)
    (hf : ∀ p, Follows eof (fun depth => run eof ⟨false, depth⟩ p.rest) (f p)) :
    Follows eof outcome (x >>= f) := by
  cases x with
  | error err => exact hx
  | ok p =>
    have hOutcome : outcome = fun depth => run eof ⟨false, depth⟩ p.rest := funext hx
    rw [hOutcome]
    exact hf p

theorem Follows.weaken {eof m n : Nat} {outcome : Nat → Except Error Unit}
    {x : Except Error (Parsed m)} (hx : Follows eof outcome x) (hLe : m ≤ n) :
    Follows eof outcome (x.map (·.weaken hLe)) := by
  cases x with
  | error err => exact hx
  | ok p => exact hx

/-- Behind an operand that no operator follows, the parenthesis has to close, and the reader is one
less deep from there on. -/
theorem follows_closeParen {eof n : Nat} {p : Parsed n} (hStops : Rank.sum.StopsAt p.rest.head?) :
    Follows eof (fun depth => run eof ⟨false, depth + 1⟩ p.rest) (closeParen eof p) := by
  obtain ⟨expr, rest, hLt⟩ := p
  cases rest with
  | nil => exact fun _ => rfl
  | cons t rest =>
    have hOperator := Token.spellsOperator_eq_false hStops
    by_cases hClose : t.isParen ")" = true
    · simp only [closeParen, if_pos hClose]
      intro depth
      simp [run_cons, step, hOperator, hClose, bind, Except.bind]
    · simp only [closeParen, if_neg hClose]
      intro depth
      simp [run_cons, step, hOperator, hClose, bind, Except.bind]

theorem follows_rule (rank : Rank) (eof : Nat) (tokens : List Token) :
    Follows eof (fun depth => run eof ⟨true, depth⟩ tokens) (rule rank eof tokens) := by
  -- A rule starts where an operand has to come, and its repetition behind one.
  apply rule_induct
    (fun rank tokens => Follows eof (fun depth => run eof ⟨true, depth⟩ tokens)
      (rule rank eof tokens))
    (fun rank lhs _ tokens hLt => Follows eof (fun depth => run eof ⟨false, depth⟩ tokens)
      (tail rank eof lhs tokens hLt))
  case level =>
    intro rank tokens hRank ihOperand ihTail
    rw [rule_eq_bind hRank]
    exact ihOperand.bind ihTail
  case stop =>
    intro rank lhs n tokens hLt hNone
    rw [tail_stop hNone]
    exact fun _ => rfl
  case operator =>
    intro rank lhs n t tokens op hLt hOp ihOperand ihTail
    simp only [tail_cons hOp, run_operator (Token.opAmong?_ops.1 hOp).2]
    exact ihOperand.bind ihTail
  case nil =>
    rw [rule, factor]
    exact fun _ => rfl
  case number =>
    intro t tokens hKind
    rw [rule, factor, if_pos hKind]
    exact fun depth => run_number hKind
  case paren =>
    intro t tokens hKind hOpen ih
    have hSum : sum eof tokens = rule .sum eof tokens := rfl
    rw [rule, factor, if_neg hKind, if_pos hOpen, hSum]
    simp only [run_open hOpen]
    -- Inside the parentheses the reader is one deeper than the rule was called.
    cases hInner : rule .sum eof tokens with
    | error err =>
      rw [hInner] at ih
      exact fun depth => ih (depth + 1)
    | ok inner =>
      rw [hInner] at ih
      have hOutcome (depth : Nat) :
          run eof ⟨true, depth + 1⟩ tokens = run eof ⟨false, depth + 1⟩ inner.rest :=
        ih (depth + 1)
      simp only [hOutcome]
      exact (follows_closeParen (stopsAt_of_rule hInner)).weaken (Nat.le_succ _)
  case unexpected =>
    intro t tokens hKind hOpen
    rw [rule, factor, if_neg hKind, if_neg hOpen]
    exact fun depth => run_unexpected hKind hOpen

/-! ## Whole tokens -/

theorem run_of_sum_ok {eof : Nat} {tokens : List Token} {p : Parsed tokens.length}
    (h : sum eof tokens = .ok p) : run eof start tokens = run eof ⟨false, 0⟩ p.rest := by
  have hFollows := follows_rule .sum eof tokens
  rw [rule, h] at hFollows
  exact hFollows 0

theorem run_of_sum_error {eof : Nat} {tokens : List Token} {err : Error}
    (h : sum eof tokens = .error err) : run eof start tokens = .error err := by
  have hFollows := follows_rule .sum eof tokens
  rw [rule, h] at hFollows
  exact hFollows 0

theorem run_of_ofTokens_ok {tokens : List Token} {e : Expr} (h : ofTokens tokens = .ok e) :
    run (Token.endOfAll tokens) start tokens = .ok () := by
  obtain ⟨⟨expr, rest, hLt⟩, hSum, hRest⟩ := bind_eq_ok.1 h
  cases rest with
  | nil => exact run_of_sum_ok hSum
  | cons t rest => cases hRest

theorem run_of_ofTokens_error {tokens : List Token} {err : Error}
    (h : ofTokens tokens = .error err) :
    run (Token.endOfAll tokens) start tokens = .error err := by
  unfold ofTokens at h
  cases hSum : sum (Token.endOfAll tokens) tokens with
  | error err' =>
    rw [hSum] at h
    cases h
    exact run_of_sum_error hSum
  | ok p =>
    have hStops : Rank.sum.StopsAt p.rest.head? := stopsAt_of_rule hSum
    rw [hSum] at h
    rw [run_of_sum_ok hSum]
    obtain ⟨expr, rest, hLt⟩ := p
    cases rest with
    | nil => cases h
    | cons t rest =>
      cases h
      exact run_trailing hStops

theorem ofTokens_error_of_run {tokens : List Token} {err : Error}
    (h : run (Token.endOfAll tokens) start tokens = .error err) :
    ofTokens tokens = .error err := by
  cases hTokens : ofTokens tokens with
  | error err' =>
    rw [run_of_ofTokens_error hTokens] at h
    rw [Except.error.inj h]
  | ok e =>
    rw [run_of_ofTokens_ok hTokens] at h
    cases h

theorem exists_ofTokens_ok_of_run {tokens : List Token}
    (h : run (Token.endOfAll tokens) start tokens = .ok ()) : ∃ e, ofTokens tokens = .ok e := by
  cases hTokens : ofTokens tokens with
  | ok e => exact ⟨e, rfl⟩
  | error err =>
    rw [run_of_ofTokens_error hTokens] at h
    cases h

/-- **Reading with a counter.** The rules and the reader accept the same tokens, and they refuse
the others with the same error. -/
theorem map_ofTokens_eq_run (tokens : List Token) :
    (ofTokens tokens).map (fun _ => ()) = run (Token.endOfAll tokens) start tokens := by
  cases h : ofTokens tokens with
  | error err => exact (run_of_ofTokens_error h).symm
  | ok e => exact (run_of_ofTokens_ok h).symm

end Counter

end ReversePolish
