import ReversePolish.Expr.Grammar
import ReversePolish.Expr.Parser

/-!
# The rules read the grammar

The rules of `Expr.Parser` repeat where the grammar of `Expr.Grammar` recurses to the left. Both say
the same of which tokens spell which expression.

* `Expr.rule`, `Expr.tail`: the rule of a level and its repetition. A rule is the one of its
  operands followed by its repetition (`Expr.rule_eq_bind`), which goes on with the operators of the
  level (`Expr.tail_cons`) and stops at anything else (`Expr.tail_stop`).
* `Expr.rule_induct`: induction along the calls that the rules make of one another.
* `Rank.StopsAt`: the rule of a level does not go on with a token. It stops at no other
  (`Expr.stopsAt_of_rule`).
* `Settles`: a run gives a result with a property, or an error of the parsing stage.
* `Expr.reads_of_rule`: what a rule reads off is derivable, and nothing is lost.
* `Expr.readWhole_of_derives`, `Expr.rule_of_derives`: derivable tokens are read whole, whatever
  follows, as long as it does not start with an operator that the level takes.
* `Expr.ofTokens_eq_ok_iff_derives`: tokens are read as exactly the expression they derive, of which
  there is at most one.
-/

namespace ReversePolish

namespace Rank

/-- The operators that the rule of the level repeats. -/
def ops : Rank → List Op
  | .sum => Expr.sumOps
  | .product => Expr.productOps
  | .factor => []

/-- The level of the operands. A factor repeats nothing. -/
def operand : Rank → Rank
  | .sum => .product
  | .product | .factor => .factor

theorem mem_ops {rank : Rank} {op : Op} : op ∈ rank.ops ↔ op.rank = rank := by
  cases rank <;> cases op <;> decide

end Rank

/-! ## Operators among tokens -/

namespace Token

theorem isOperator_iff {t : Token} {symbol : String} :
    t.isOperator symbol = true ↔ t.kind = .operator ∧ t.text = symbol := by
  simp [isOperator]

theorem isParen_iff {t : Token} {symbol : String} :
    t.isParen symbol = true ↔ t.kind = .paren ∧ t.text = symbol := by
  simp [isParen]

/-- A token spells at most one operator, so that the order of `ops` is of no account. -/
theorem opAmong?_eq_some {t : Token} {ops : List Op} {op : Op} :
    t.opAmong? ops = some op ↔ op ∈ ops ∧ t.isOperator op.symbol = true := by
  unfold opAmong?
  constructor
  · intro h
    exact ⟨List.mem_of_find?_eq_some h, by simpa using List.find?_some h⟩
  · rintro ⟨hMem, h⟩
    cases hFind : ops.find? fun op => t.isOperator op.symbol with
    | none => exact absurd h (by simpa using List.find?_eq_none.1 hFind op hMem)
    | some found =>
      have hFound : t.isOperator found.symbol = true := by simpa using List.find?_some hFind
      have hText := (isOperator_iff.1 hFound).2.symm.trans (isOperator_iff.1 h).2
      rw [Op.symbol_inj.1 hText]

theorem opAmong?_ops {t : Token} {rank : Rank} {op : Op} :
    t.opAmong? rank.ops = some op ↔ op.rank = rank ∧ t.isOperator op.symbol = true := by
  rw [opAmong?_eq_some, Rank.mem_ops]

/-- A token that is an operator of one level is none of another. -/
theorem opAmong?_ops_of_ne {t : Token} {op : Op} {rank : Rank} (h : t.isOperator op.symbol = true)
    (hRank : op.rank ≠ rank) : t.opAmong? rank.ops = none := by
  rw [Option.eq_none_iff_forall_ne_some]
  intro other hOther
  obtain ⟨rfl, h'⟩ := opAmong?_ops.1 hOther
  have hText := (isOperator_iff.1 h).2.symm.trans (isOperator_iff.1 h').2
  rw [Op.symbol_inj.1 hText] at hRank
  exact hRank rfl

/-- The operands of operands are factors, which take no operators. -/
theorem opAmong?_operand_operand (t : Token) (rank : Rank) :
    t.opAmong? rank.operand.operand.ops = none := by
  cases rank <;> rfl

/-- A parenthesis is no operator. -/
theorem opAmong?_of_isParen {t : Token} {symbol : String} (ops : List Op)
    (h : t.isParen symbol = true) : t.opAmong? ops = none := by
  simp [opAmong?, isOperator, (isParen_iff.1 h).1]

theorem kind_ne_number_of_isParen {t : Token} {symbol : String} (h : t.isParen symbol = true) :
    t.kind ≠ .number := by
  simp [(isParen_iff.1 h).1]

end Token

/-! ## Where the rules stop -/

namespace Rank

/-- The operators that the repetitions of the level take, those of its operands included. -/
def loopOps : Rank → List Op
  | .sum => [.add, .sub, .mul, .div]
  | .product => [.mul, .div]
  | .factor => []

/-- There is no next token, or it is none of the operators that the level takes. -/
def StopsAt (rank : Rank) (next : Option Token) : Prop :=
  ∀ t ∈ next, ∀ op ∈ rank.loopOps, t.isOperator op.symbol = false

theorem stopsAt_factor (next : Option Token) : factor.StopsAt next := by
  simp [StopsAt, loopOps]

theorem stopsAt_iff {rank : Rank} {next : Option Token} :
    rank.StopsAt next ↔ (∀ t ∈ next, t.opAmong? rank.ops = none) ∧ rank.operand.StopsAt next := by
  have hOps (op : Op) : op ∈ rank.loopOps ↔ op ∈ rank.ops ∨ op ∈ rank.operand.loopOps := by
    cases rank <;> cases op <;> decide
  simp only [StopsAt, hOps, Token.opAmong?, List.find?_eq_none, Bool.not_eq_true]
  constructor
  · intro h
    exact ⟨fun t ht op hOp => h t ht op (Or.inl hOp), fun t ht op hOp => h t ht op (Or.inr hOp)⟩
  · rintro ⟨hOwn, hOperand⟩ t ht op (hOp | hOp)
    · exact hOwn t ht op hOp
    · exact hOperand t ht op hOp

end Rank

/-! ## The rules by level -/

namespace Expr

/-- The rule of a level. -/
def rule : Rank → (eof : Nat) → (tokens : List Token) → Except Error (Parsed tokens.length)
  | .sum => sum
  | .product => product
  | .factor => factor

/-- How the rule of a level goes on behind an operand. -/
def tail (rank : Rank) (eof : Nat) (lhs : Expr) {n : Nat} (tokens : List Token)
    (hLt : tokens.length < n) : Except Error (Parsed n) :=
  match rank with
  | .sum => sumTail eof lhs tokens hLt
  | .product => productTail eof lhs tokens hLt
  | .factor => .ok ⟨lhs, tokens, hLt⟩

theorem rule_eq_bind {rank : Rank} (hRank : rank ≠ .factor) (eof : Nat) (tokens : List Token) :
    rule rank eof tokens =
      rule rank.operand eof tokens >>= fun p => tail rank eof p.expr p.rest p.length_lt := by
  cases rank with
  | sum => exact sum.eq_def eof tokens
  | product => exact product.eq_def eof tokens
  | factor => exact absurd rfl hRank

theorem tail_stop {rank : Rank} {eof n : Nat} {lhs : Expr} {tokens : List Token}
    (hNone : ∀ t ∈ tokens.head?, t.opAmong? rank.ops = none) (hLt : tokens.length < n) :
    tail rank eof lhs tokens hLt = .ok ⟨lhs, tokens, hLt⟩ := by
  cases tokens with
  | nil => cases rank <;> simp only [tail, sumTail, productTail]
  | cons t tokens =>
    have hHead := hNone t rfl
    cases rank <;> simp only [Rank.ops] at hHead <;>
      simp only [tail, sumTail, productTail, hHead]

theorem tail_cons {rank : Rank} {eof n : Nat} {lhs : Expr} {t : Token} {tokens : List Token}
    {op : Op} (hOp : t.opAmong? rank.ops = some op) (hLt : (t :: tokens).length < n) :
    tail rank eof lhs (t :: tokens) hLt =
      rule rank.operand eof tokens >>= fun p =>
        tail rank eof (.binary op lhs p.expr t.offset) p.rest
          (Nat.lt_trans p.length_lt (Nat.lt_of_succ_lt hLt)) := by
  cases rank with
  | sum =>
    have hSum : t.opAmong? sumOps = some op := hOp
    rw [tail, sumTail]
    simp only [hSum]
    rfl
  | product =>
    have hProduct : t.opAmong? productOps = some op := hOp
    rw [tail, productTail]
    simp only [hProduct]
    rfl
  | factor => cases hOp

/-- Induction along the calls that the rules make of one another. What holds of the operands of a
level and of its repetition behind them holds of the level, and what holds of sums holds of factors,
which are sums in parentheses. -/
theorem rule_induct (motive : Rank → List Token → Prop)
    (tailMotive : Rank → Expr → (n : Nat) → (tokens : List Token) → tokens.length < n → Prop)
    (level : ∀ rank tokens, rank ≠ .factor → motive rank.operand tokens →
      (∀ p : Parsed tokens.length, tailMotive rank p.expr tokens.length p.rest p.length_lt) →
      motive rank tokens)
    (stop : ∀ rank lhs n tokens hLt, (∀ t ∈ tokens.head?, t.opAmong? rank.ops = none) →
      tailMotive rank lhs n tokens hLt)
    (operator : ∀ rank lhs n t tokens op (hLt : (t :: tokens).length < n),
      t.opAmong? rank.ops = some op → motive rank.operand tokens →
      (∀ p : Parsed tokens.length, tailMotive rank (.binary op lhs p.expr t.offset) n p.rest
        (Nat.lt_trans p.length_lt (Nat.lt_of_succ_lt hLt))) →
      tailMotive rank lhs n (t :: tokens) hLt)
    (nil : motive .factor [])
    (number : ∀ t tokens, t.kind = .number → motive .factor (t :: tokens))
    (paren : ∀ t tokens, t.kind ≠ .number → t.isParen "(" = true → motive .sum tokens →
      motive .factor (t :: tokens))
    (unexpected : ∀ t tokens, t.kind ≠ .number → ¬ t.isParen "(" = true →
      motive .factor (t :: tokens))
    (rank : Rank) (tokens : List Token) : motive rank tokens := by
  have hStop (rank : Rank) (lhs : Expr) (n : Nat) (t : Token) (tokens : List Token)
      (hLt : (t :: tokens).length < n) (hOp : t.opAmong? rank.ops = none) :
      tailMotive rank lhs n (t :: tokens) hLt := by
    refine stop rank lhs n (t :: tokens) hLt ?_
    rintro u ⟨⟩
    exact hOp
  obtain ⟨hSum, -, hProduct, -, hFactor⟩ := sum.mutual_induct
    (motive .sum) (tailMotive .sum) (motive .product) (tailMotive .product) (motive .factor)
    (fun tokens => level .sum tokens nofun)
    (fun lhs n hLt _ => stop .sum lhs n [] hLt nofun)
    (fun lhs n t tokens hLt hOp _ => hStop .sum lhs n t tokens hLt hOp)
    (fun lhs n t tokens hLt op hOp _ => operator .sum lhs n t tokens op hLt hOp)
    (fun tokens => level .product tokens nofun)
    (fun lhs n hLt _ => stop .product lhs n [] hLt nofun)
    (fun lhs n t tokens hLt hOp _ => hStop .product lhs n t tokens hLt hOp)
    (fun lhs n t tokens hLt op hOp _ => operator .product lhs n t tokens op hLt hOp)
    nil number paren unexpected
  cases rank with
  | sum => exact hSum tokens
  | product => exact hProduct tokens
  | factor => exact hFactor tokens

/-- A rule that succeeds stops at a token that it could not go on with. -/
theorem stopsAt_of_rule {rank : Rank} {eof : Nat} {tokens : List Token} {p : Parsed tokens.length}
    (h : rule rank eof tokens = .ok p) : rank.StopsAt p.rest.head? := by
  revert p
  -- The repetition is called behind an operand, where no operator of the operands goes on.
  apply rule_induct (fun rank tokens => ∀ {p}, rule rank eof tokens = .ok p →
      rank.StopsAt p.rest.head?)
    (fun rank lhs n tokens hLt => rank.operand.StopsAt tokens.head? →
      ∀ {p : Parsed n}, tail rank eof lhs tokens hLt = .ok p → rank.StopsAt p.rest.head?)
  case level =>
    intro rank tokens hRank ihOperand ihTail p h
    rw [rule_eq_bind hRank] at h
    obtain ⟨first, hFirst, hTail⟩ := bind_eq_ok.1 h
    exact ihTail first (ihOperand hFirst) hTail
  case stop =>
    intro rank lhs n tokens hLt hNone hHead p h
    rw [tail_stop hNone] at h
    cases h
    exact Rank.stopsAt_iff.2 ⟨hNone, hHead⟩
  case operator =>
    intro rank lhs n t tokens op hLt hOp ihOperand ihTail _ p h
    rw [tail_cons hOp] at h
    obtain ⟨next, hNext, hTail⟩ := bind_eq_ok.1 h
    exact ihTail next (ihOperand hNext) hTail
  all_goals
    intros
    exact Rank.stopsAt_factor _

end Expr

/-! ## Runs that end well or with an error of the parsing stage -/

/-- The run gives a result with the property, or an error of the parsing stage. -/
def Settles {α : Type} (P : α → Prop) : Except Error α → Prop
  | .ok a => P a
  | .error e => e.stage = .parsing

namespace Settles

variable {α β : Type} {P : α → Prop} {Q : β → Prop} {x : Except Error α}

theorem bind {f : α → Except Error β} (hx : Settles P x) (hf : ∀ a, P a → Settles Q (f a)) :
    Settles Q (x >>= f) := by
  cases x with
  | error e => exact hx
  | ok a => exact hf a hx

theorem map {g : α → β} (hx : Settles P x) (hg : ∀ a, P a → Q (g a)) : Settles Q (x.map g) := by
  cases x with
  | error e => exact hx
  | ok a => exact hg a hx

end Settles

/-! ## What the rules read is derivable -/

namespace Derives

variable {rank : Rank} {l r : List Token} {a b : Expr} {t : Token} {op : Op}

theorem of_operand (h : Derives rank.operand l a) : Derives rank l a := by
  cases rank with
  | sum => exact .ofProduct h
  | product => exact .ofFactor h
  | factor => exact h

theorem operator (hLeft : Derives rank l a) (hRank : op.rank = rank)
    (hSymbol : t.isOperator op.symbol = true) (hRight : Derives rank.operand r b) :
    Derives rank (l ++ t :: r) (.binary op a b t.offset) := by
  cases rank with
  | sum => exact .sum hLeft hRank hSymbol hRight
  | product => exact .product hLeft hRank hSymbol hRight
  | factor => cases op <;> cases hRank

end Derives

namespace Expr

/-- What was read off the front of the tokens is derivable at the level. -/
def Reads (rank : Rank) (tokens : List Token) {n : Nat} (p : Parsed n) : Prop :=
  ∃ l, tokens = l ++ p.rest ∧ Derives rank l p.expr

theorem closeParen_settles (eof : Nat) {n : Nat} (p : Parsed n) :
    Settles (fun q => ∃ closing, closing.isParen ")" = true ∧ p.rest = closing :: q.rest ∧
      p.expr = q.expr) (closeParen eof p) := by
  obtain ⟨expr, rest, hLt⟩ := p
  cases rest with
  | nil => rfl
  | cons closing rest =>
    by_cases hClose : closing.isParen ")" = true
    · simp only [closeParen, if_pos hClose]
      exact ⟨closing, hClose, rfl, rfl⟩
    · simp only [closeParen, if_neg hClose]
      rfl

theorem reads_of_rule (rank : Rank) (eof : Nat) (tokens : List Token) :
    Settles (Reads rank tokens) (rule rank eof tokens) := by
  apply rule_induct (fun rank tokens => Settles (Reads rank tokens) (rule rank eof tokens))
    (fun rank lhs _ tokens hLt => ∀ l, Derives rank l lhs →
      Settles (Reads rank (l ++ tokens)) (tail rank eof lhs tokens hLt))
  case level =>
    intro rank tokens hRank ihOperand ihTail
    rw [rule_eq_bind hRank]
    refine ihOperand.bind ?_
    rintro first ⟨l, hSplit, hDerives⟩
    have hTail := ihTail first l hDerives.of_operand
    rwa [← hSplit] at hTail
  case stop =>
    intro rank lhs n tokens hLt hNone l hDerives
    rw [tail_stop hNone]
    exact ⟨l, rfl, hDerives⟩
  -- The repetition goes on: what is read so far is the left operand of the next operator.
  case operator =>
    intro rank lhs n t tokens op hLt hOp ihOperand ihTail l hLeft
    obtain ⟨hRank, hSymbol⟩ := Token.opAmong?_ops.1 hOp
    rw [tail_cons hOp]
    refine ihOperand.bind ?_
    rintro next ⟨r, hSplit, hRight⟩
    have hTail := ihTail next (l ++ t :: r) (hLeft.operator hRank hSymbol hRight)
    rwa [List.append_assoc, List.cons_append, ← hSplit] at hTail
  case nil =>
    rw [rule, factor]
    rfl
  case number =>
    intro t tokens hKind
    rw [rule, factor, if_pos hKind]
    exact ⟨[t], rfl, .number hKind⟩
  -- A sum in parentheses: the token after it has to close them.
  case paren =>
    intro t tokens hKind hOpen ih
    rw [rule, factor, if_neg hKind, if_pos hOpen]
    refine ih.bind ?_
    rintro inner ⟨l, hSplit, hDerives⟩
    refine (closeParen_settles eof inner).map ?_
    rintro closed ⟨closing, hClose, hRest, hExpr⟩
    refine ⟨t :: (l ++ [closing]), ?_, .paren hOpen (hExpr ▸ hDerives) hClose⟩
    simp [hSplit, hRest, Parsed.weaken]
  case unexpected =>
    intro t tokens hKind hOpen
    rw [rule, factor, if_neg hKind, if_neg hOpen]
    rfl

/-! ## What is derivable is read -/

/-- How the rule of a level reads derivable tokens: up to where its repetition goes on, if what
follows does not start with an operator that the operands take. -/
def ReadWhole (eof : Nat) (rank : Rank) (l : List Token) (a : Expr) : Prop :=
  ∀ rest, (∀ t ∈ rest.head?, t.opAmong? rank.operand.ops = none) →
    ∃ h, rule rank eof (l ++ rest) = tail rank eof a rest h

namespace ReadWhole

variable {eof : Nat} {rank : Rank} {l r : List Token} {a b : Expr} {t : Token} {op : Op}

/-- An operand is read at its own level first, and the repetition takes over behind it. -/
theorem of_operand (hRank : rank ≠ .factor) (h : ReadWhole eof rank.operand l a) :
    ReadWhole eof rank l a := by
  intro rest hRest
  obtain ⟨hLt, hOperand⟩ := h rest fun u _ => u.opAmong?_operand_operand rank
  refine ⟨hLt, ?_⟩
  rw [rule_eq_bind hRank, hOperand, tail_stop hRest]
  rfl

/-- An operator goes on with what stands before it. -/
theorem operator (hLeft : ReadWhole eof rank l a) (hRank : op.rank = rank)
    (hSymbol : t.isOperator op.symbol = true) (hRight : ReadWhole eof rank.operand r b) :
    ReadWhole eof rank (l ++ t :: r) (.binary op a b t.offset) := by
  intro rest hRest
  subst hRank
  have hTight : ∀ u ∈ (t :: (r ++ rest)).head?, u.opAmong? op.rank.operand.ops = none := by
    rintro u ⟨⟩
    exact Token.opAmong?_ops_of_ne hSymbol (by cases op <;> decide)
  obtain ⟨hLt, hLeft⟩ := hLeft (t :: (r ++ rest)) hTight
  obtain ⟨hLt', hRight⟩ := hRight rest fun u _ => u.opAmong?_operand_operand op.rank
  rw [List.append_assoc, List.cons_append]
  refine ⟨by simp at hLt' ⊢; omega, ?_⟩
  rw [hLeft, tail_cons (Token.opAmong?_ops.2 ⟨rfl, hSymbol⟩), hRight, tail_stop hRest]
  rfl

end ReadWhole

theorem readWhole_of_derives {rank : Rank} {l : List Token} {a : Expr} (eof : Nat)
    (h : Derives rank l a) : ReadWhole eof rank l a := by
  induction h with
  | sum _ hRank hSymbol _ ihLeft ihRight => exact ihLeft.operator hRank hSymbol ihRight
  | ofProduct _ ih => exact ih.of_operand nofun
  | product _ hRank hSymbol _ ihLeft ihRight => exact ihLeft.operator hRank hSymbol ihRight
  | ofFactor _ ih => exact ih.of_operand nofun
  | @number t hKind =>
    intro rest _
    refine ⟨by simp, ?_⟩
    simp only [List.cons_append, List.nil_append]
    rw [rule, factor, if_pos hKind]
    rfl
  | @paren l a opening closing hOpen _ hClose ih =>
    intro rest _
    have hList : opening :: (l ++ [closing]) ++ rest = opening :: (l ++ closing :: rest) := by simp
    have hStop : ∀ ops, ∀ u ∈ (closing :: rest).head?, u.opAmong? ops = none := by
      rintro ops u ⟨⟩
      exact Token.opAmong?_of_isParen ops hClose
    obtain ⟨hLt, hInner⟩ := ih (closing :: rest) (hStop _)
    rw [rule, tail_stop (hStop _)] at hInner
    rw [hList]
    refine ⟨by simp; omega, ?_⟩
    rw [rule, factor, if_neg (Token.kind_ne_number_of_isParen hOpen), if_pos hOpen, hInner]
    simp [closeParen, hClose, bind, Except.bind, Except.map, Parsed.weaken, tail]

/-- Derivable tokens are read whole if the rule does not go on behind them. -/
theorem rule_of_derives {rank : Rank} {l rest : List Token} {e : Expr} (eof : Nat)
    (h : Derives rank l e) (hStops : rank.StopsAt rest.head?) :
    ∃ hLt, rule rank eof (l ++ rest) = .ok ⟨e, rest, hLt⟩ := by
  obtain ⟨hOwn, hOperand⟩ := Rank.stopsAt_iff.1 hStops
  obtain ⟨hLt, hRule⟩ := readWhole_of_derives eof h rest (Rank.stopsAt_iff.1 hOperand).1
  exact ⟨hLt, hRule.trans (tail_stop hOwn hLt)⟩

/-! ## The two agree -/

theorem ofTokens_settles (tokens : List Token) :
    Settles (Derives .sum tokens) (ofTokens tokens) := by
  refine (reads_of_rule .sum (Token.endOfAll tokens) tokens).bind ?_
  rintro ⟨expr, rest, hLt⟩ ⟨l, hSplit, hDerives⟩
  cases rest with
  | nil =>
    rw [List.append_nil] at hSplit
    exact hSplit ▸ hDerives
  | cons t rest => rfl

theorem derives_of_ofTokens {tokens : List Token} {e : Expr} (h : ofTokens tokens = .ok e) :
    Derives .sum tokens e := by
  have hSettles := ofTokens_settles tokens
  rw [h] at hSettles
  exact hSettles

/-- Tokens that spell no expression are refused at the parsing stage. -/
theorem stage_of_ofTokens {tokens : List Token} {err : Error} (h : ofTokens tokens = .error err) :
    err.stage = .parsing := by
  have hSettles := ofTokens_settles tokens
  rw [h] at hSettles
  exact hSettles

theorem ofTokens_of_derives {tokens : List Token} {e : Expr} (h : Derives .sum tokens e) :
    ofTokens tokens = .ok e := by
  -- The rules are stated for derivable tokens with others behind them; here there are none.
  rw [← List.append_nil tokens]
  have hStops : Rank.sum.StopsAt ([] : List Token).head? := nofun
  obtain ⟨hLt, hSum⟩ := rule_of_derives (Token.endOfAll (tokens ++ [])) h hStops
  rw [rule] at hSum
  rw [ofTokens, hSum]
  rfl

/-- Tokens spell at most one expression, because the rules give at most one result. -/
theorem derives_unique {tokens : List Token} {a b : Expr} (ha : Derives .sum tokens a)
    (hb : Derives .sum tokens b) : a = b := by
  have hSame := (ofTokens_of_derives ha).symm.trans (ofTokens_of_derives hb)
  exact Except.ok.inj hSame

/-- **The grammar is read exactly.** Tokens are read as an expression if and only if they derive
it, and they derive at most one. -/
theorem ofTokens_eq_ok_iff_derives (tokens : List Token) :
    (∀ e, ofTokens tokens = .ok e ↔ Derives .sum tokens e) ∧
      ∀ a b, Derives .sum tokens a → Derives .sum tokens b → a = b :=
  ⟨fun _ => ⟨derives_of_ofTokens, ofTokens_of_derives⟩, fun _ _ => derives_unique⟩

/-- Two differences in a row, the last operand in parentheses. Texts and offsets of the numbers are
of no account. -/
def differences : List Token :=
  [⟨.number, "8", 70⟩, ⟨.operator, "-", 1⟩, ⟨.number, "three", 5⟩, ⟨.operator, "-", 2⟩,
    ⟨.paren, "(", 0⟩, ⟨.number, "2", 4⟩, ⟨.paren, ")", 0⟩]

/-- The differences are read as leaning to the left, and they do not lean to the right as well. -/
theorem ofTokens_differences :
    ofTokens differences =
        .ok (.binary .sub (.binary .sub (.leaf "8" 70) (.leaf "three" 5) 1) (.leaf "2" 4) 2) ∧
      ¬ Derives .sum differences
        (.binary .sub (.leaf "8" 70) (.binary .sub (.leaf "three" 5) (.leaf "2" 4) 2) 1) := by
  obtain ⟨hIff, hUnique⟩ := ofTokens_eq_ok_iff_derives differences
  have hNumber (text : String) (offset : Nat) :
      Derives .product [⟨.number, text, offset⟩] (.leaf text offset) := .ofFactor (.number rfl)
  have hParen : Derives .product [⟨.paren, "(", 0⟩, ⟨.number, "2", 4⟩, ⟨.paren, ")", 0⟩]
      (.leaf "2" 4) := .ofFactor (.paren rfl (.ofProduct (hNumber "2" 4)) rfl)
  have hInner : Derives .sum [⟨.number, "8", 70⟩, ⟨.operator, "-", 1⟩, ⟨.number, "three", 5⟩]
      (.binary .sub (.leaf "8" 70) (.leaf "three" 5) 1) :=
    .sum (.ofProduct (hNumber "8" 70)) rfl rfl (hNumber "three" 5)
  have hLeft : Derives .sum differences
      (.binary .sub (.binary .sub (.leaf "8" 70) (.leaf "three" 5) 1) (.leaf "2" 4) 2) :=
    .sum hInner rfl rfl hParen
  refine ⟨(hIff _).2 hLeft, fun hRight => ?_⟩
  exact absurd (hUnique _ _ hLeft hRight) (by decide)

end Expr

end ReversePolish
