import Mathlib
import ReversePolish.Proofs.Parsing

/-!
# The rules with a cursor

The rules of `Expr.Parser` take tokens off the front of a list, and their types say that they take
at least one. Here the tokens stay in place and a cursor moves over them, as an index that no type
holds back: that it always gets on, and that the calls therefore come to an end, is proved.

* `Cursor.Call`, `Cursor.run`: the calls that the rules make, carried out to a given depth.
* `Cursor.readAt`: what the rule of a level reads from an index on, and the index where it stops.
* `Cursor.enough`: the calls end, no deeper than three of them for each token that is left and three
  more, and they find what the rules find.
* `Cursor.readAt_eq_ok_iff`: a rule reads the slice of the tokens that spells an expression, if it
  stops behind it.
* `Cursor.readAt_local`: the rules get on, and they look at no token but those they read and the one
  where they stop.
-/

namespace ReversePolish

/-! ## The cursor -/

namespace Cursor

/-- The expression that was read, and the index of the first token behind it. -/
def place (tokens : List Token) {n : Nat} (p : Expr.Parsed n) : Expr × Nat :=
  (p.expr, tokens.length - p.rest.length)

/-- What the rule of a level makes of the tokens from index `start` on: the expression that it reads
and the index of the token where it stops, or an error. -/
def readAt (rank : Rank) (tokens : List Token) (start : Nat) : Except Error (Expr × Nat) :=
  (Expr.rule rank (Token.endOfAll tokens) (tokens.drop start)).map (place tokens)

/-- A call with the cursor at a token: of the rule of a level, or of its repetition behind what is
read so far. -/
inductive Call where
  | rule (rank : Rank) (start : Nat)
  | tail (rank : Rank) (lhs : Expr) (start : Nat)

/-- Steps over the parenthesis that has to stand at the cursor. -/
def closeAt (tokens : List Token) (e : Expr) (start : Nat) : Except Error (Expr × Nat) :=
  match tokens[start]? with
  | none => .error (.missingCloseParen (Token.endOfAll tokens))
  | some t =>
    if t.isParen ")" then .ok (e, start + 1) else .error (.missingCloseParen t.offset)

/-- Carries out a call. The calls that it makes may be nested `depth` deep, where each round of a
repetition counts as a call of its own; a call that would go deeper gives nothing. -/
def run (tokens : List Token) : (depth : Nat) → Call → ExceptT Error Option (Expr × Nat)
  | 0, _ => ExceptT.mk none
  | depth + 1, .rule .factor start =>
    match tokens[start]? with
    | none => throw (.unexpectedEnd (Token.endOfAll tokens))
    | some t =>
      if t.kind = .number then pure (.leaf t.text t.offset, start + 1)
      else if t.isParen "(" then do
        let (e, stop) ← run tokens depth (.rule .sum (start + 1))
        ExceptT.mk (some (closeAt tokens e stop))
      else throw (.unexpectedToken t)
  | depth + 1, .rule rank start => do
    let (e, stop) ← run tokens depth (.rule rank.operand start)
    run tokens depth (.tail rank e stop)
  | depth + 1, .tail rank lhs start =>
    match tokens[start]? with
    | none => pure (lhs, start)
    | some t =>
      match t.opAmong? rank.ops with
      | none => pure (lhs, start)
      | some op => do
        let (rhs, stop) ← run tokens depth (.rule rank.operand (start + 1))
        run tokens depth (.tail rank (.binary op lhs rhs t.offset) stop)

/-! ## The cursor gets on -/

/-- What a rule reads off is a slice of the tokens that is not empty. -/
theorem exists_stop {tokens rest : List Token} {rank : Rank} {eof start : Nat} {e : Expr}
    {hLt : rest.length < (tokens.drop start).length}
    (h : Expr.rule rank eof (tokens.drop start) = .ok ⟨e, rest, hLt⟩) :
    ∃ stop, rest = tokens.drop stop ∧ tokens.length - rest.length = stop ∧ start < stop ∧
      stop ≤ tokens.length ∧ Derives rank (tokens.extract start stop) e := by
  obtain ⟨l, hSplit, hDerives⟩ : ∃ l, tokens.drop start = l ++ rest ∧ Derives rank l e := by
    have hReads := Expr.reads_of_rule rank eof (tokens.drop start)
    rw [h] at hReads
    exact hReads
  have hLength := congrArg List.length hSplit
  rw [List.length_append, List.length_drop] at hLength
  rw [List.length_drop] at hLt
  have hRest : rest = tokens.drop (start + l.length) := by
    rw [← List.drop_drop, hSplit, List.drop_left]
  have hSlice : tokens.extract start (start + l.length) = l := by
    rw [List.extract_eq_take_drop, Nat.add_sub_cancel_left, hSplit, List.take_left]
  refine ⟨start + l.length, hRest, ?_, ?_, ?_, ?_⟩
  · omega
  · omega
  · omega
  · rw [hSlice]
    exact hDerives

/-! ## The calls end -/

/-- A depth that is enough for the rule of a level where no token is left. -/
def leastDepth : Rank → Nat
  | .sum => 3
  | .product => 2
  | .factor => 1

/-- Calls for which the depth is enough find what the rules find. Each token that is left takes
three calls: one for each level. -/
structure Enough (tokens : List Token) (depth : Nat) : Prop where
  rule : ∀ rank start, start ≤ tokens.length →
    3 * (tokens.length - start) + leastDepth rank ≤ depth →
    run tokens depth (.rule rank start) = ExceptT.mk (some (readAt rank tokens start))
  tail : ∀ rank lhs start n (hLt : (tokens.drop start).length < n), start ≤ tokens.length →
    3 * (tokens.length - start) + 1 ≤ depth →
    run tokens depth (.tail rank lhs start) = ExceptT.mk (some
      ((Expr.tail rank (Token.endOfAll tokens) lhs (tokens.drop start) hLt).map (place tokens)))

theorem leastDepth_operand {rank : Rank} (hRank : rank ≠ .factor) :
    leastDepth rank.operand + 1 = leastDepth rank := by
  cases rank with
  | sum => rfl
  | product => rfl
  | factor => exact absurd rfl hRank

theorem leastDepth_operand_le (rank : Rank) : leastDepth rank.operand ≤ 2 := by
  cases rank <;> decide

theorem drop_of_getElem? {tokens : List Token} {start : Nat} {t : Token}
    (h : tokens[start]? = some t) : tokens.drop start = t :: tokens.drop (start + 1) := by
  obtain ⟨hIn, rfl⟩ := List.getElem?_eq_some_iff.1 h
  exact List.drop_eq_getElem_cons hIn

theorem length_sub_length_drop {tokens : List Token} {start : Nat} (h : start ≤ tokens.length) :
    tokens.length - (tokens.drop start).length = start := by
  rw [List.length_drop]
  omega

section Step

variable {tokens : List Token} {depth start n : Nat} {rank : Rank}

/-- A rule that is called first, and what is done behind the expression that it reads. -/
theorem run_bind {f : Expr × Nat → ExceptT Error Option (Expr × Nat)}
    {g : Expr.Parsed (tokens.drop start).length → Except Error (Expr.Parsed n)}
    (h : Enough tokens depth) (hStart : start ≤ tokens.length)
    (hDepth : 3 * (tokens.length - start) + leastDepth rank ≤ depth)
    (hThen : ∀ e stop hLt, start < stop → stop ≤ tokens.length →
      f (e, stop) = ExceptT.mk (some ((g ⟨e, tokens.drop stop, hLt⟩).map (place tokens)))) :
    run tokens depth (.rule rank start) >>= f = ExceptT.mk (some
      ((Expr.rule rank (Token.endOfAll tokens) (tokens.drop start) >>= g).map (place tokens))) := by
  rw [h.rule rank start hStart hDepth, readAt]
  cases hRule : Expr.rule rank (Token.endOfAll tokens) (tokens.drop start) with
  | error err => rfl
  | ok p =>
    obtain ⟨e, rest, hLt⟩ := p
    obtain ⟨stop, rfl, hStop, hLow, hHigh, -⟩ := exists_stop hRule
    change f (e, tokens.length - (tokens.drop stop).length) = _
    rw [hStop]
    exact hThen e stop hLt hLow hHigh

theorem run_rule (h : Enough tokens depth) (hRank : rank ≠ .factor) (hStart : start ≤ tokens.length)
    (hDepth : 3 * (tokens.length - start) + leastDepth rank ≤ depth + 1) :
    run tokens (depth + 1) (.rule rank start) = ExceptT.mk (some (readAt rank tokens start)) := by
  have hLeast := leastDepth_operand hRank
  rw [run, readAt, Expr.rule_eq_bind hRank]
  · apply run_bind h hStart (by omega)
    intro e stop hLt hLow hHigh
    exact h.tail rank e stop _ hLt hHigh (by omega)
  · exact hRank

theorem map_place_tail {lhs : Expr} (hStart : start ≤ tokens.length)
    (hLt : (tokens.drop start).length < n)
    (hNone : ∀ t ∈ tokens[start]?, t.opAmong? rank.ops = none) :
    (Expr.tail rank (Token.endOfAll tokens) lhs (tokens.drop start) hLt).map (place tokens) =
      .ok (lhs, start) := by
  rw [← List.head?_drop] at hNone
  rw [Expr.tail_stop hNone, Except.map, place, length_sub_length_drop hStart]

theorem run_tail {lhs : Expr} (h : Enough tokens depth) (hStart : start ≤ tokens.length)
    (hDepth : 3 * (tokens.length - start) + 1 ≤ depth + 1)
    (hLt : (tokens.drop start).length < n) :
    run tokens (depth + 1) (.tail rank lhs start) = ExceptT.mk (some
      ((Expr.tail rank (Token.endOfAll tokens) lhs (tokens.drop start) hLt).map
        (place tokens))) := by
  rw [run]
  cases hGet : tokens[start]? with
  | none =>
    rw [map_place_tail hStart hLt (by simp [hGet])]
    rfl
  | some t =>
    cases hOp : t.opAmong? rank.ops with
    | none =>
      rw [map_place_tail hStart hLt (by simp [hGet, hOp])]
      simp only [hOp]
      rfl
    | some op =>
      obtain ⟨hIn, -⟩ := List.getElem?_eq_some_iff.1 hGet
      have hLeast := leastDepth_operand_le rank
      -- The bound speaks of the tokens that are rewritten, so it steps aside meanwhile.
      revert hLt
      rw [drop_of_getElem? hGet]
      intro hLt
      rw [Expr.tail_cons hOp]
      simp only [hOp]
      refine run_bind h hIn (by omega) ?_
      intro rhs stop hLt' hLow hHigh
      exact h.tail rank _ stop n _ hHigh (by omega)

theorem closeAt_eq (e : Expr) (hLt : (tokens.drop start).length < n) :
    closeAt tokens e start =
      (Expr.closeParen (Token.endOfAll tokens) ⟨e, tokens.drop start, hLt⟩).map (place tokens) := by
  rw [closeAt]
  cases hGet : tokens[start]? with
  | none =>
    revert hLt
    rw [List.drop_eq_nil_of_le (List.getElem?_eq_none_iff.1 hGet)]
    intro hLt
    rfl
  | some t =>
    obtain ⟨hIn, -⟩ := List.getElem?_eq_some_iff.1 hGet
    revert hLt
    rw [drop_of_getElem? hGet]
    intro hLt
    by_cases hClose : t.isParen ")" = true
    · simp only [Expr.closeParen, if_pos hClose, Except.map, place, length_sub_length_drop hIn]
    · simp only [Expr.closeParen, if_neg hClose, Except.map]

theorem run_factor (h : Enough tokens depth)
    (hDepth : 3 * (tokens.length - start) + leastDepth .factor ≤ depth + 1) :
    run tokens (depth + 1) (.rule .factor start) =
      ExceptT.mk (some (readAt .factor tokens start)) := by
  rw [run, readAt]
  cases hGet : tokens[start]? with
  | none =>
    rw [List.drop_eq_nil_of_le (List.getElem?_eq_none_iff.1 hGet), Expr.rule, Expr.factor]
    rfl
  | some t =>
    obtain ⟨hIn, -⟩ := List.getElem?_eq_some_iff.1 hGet
    rw [drop_of_getElem? hGet, Expr.rule, Expr.factor]
    by_cases hKind : t.kind = .number
    · simp only [if_pos hKind, Except.map, place, length_sub_length_drop hIn]
      rfl
    · by_cases hOpen : t.isParen "(" = true
      · simp only [if_neg hKind, if_pos hOpen]
        have hInner : 3 * (tokens.length - (start + 1)) + leastDepth .sum ≤ depth := by
          simp only [leastDepth] at hDepth ⊢
          omega
        refine run_bind h hIn hInner ?_
        intro e stop hLt hLow hHigh
        rw [closeAt_eq e hLt]
        cases Expr.closeParen (Token.endOfAll tokens) ⟨e, tokens.drop stop, hLt⟩ with
        | error err => rfl
        | ok closed => rfl
      · simp only [if_neg hKind, if_neg hOpen]
        rfl

end Step

/-- The calls end at every depth that is enough: each call that is made has either moved the cursor
on or gone down a level. -/
theorem enough (tokens : List Token) (depth : Nat) : Enough tokens depth := by
  induction depth with
  | zero =>
    -- Every call needs some depth, so that none is left to carry out.
    refine ⟨fun rank start hStart hDepth => ?_, fun rank lhs start n hLt hStart hDepth => ?_⟩
    · cases rank <;> simp [leastDepth] at hDepth
    · omega
  | succ depth ih =>
    refine ⟨fun rank start hStart hDepth => ?_, fun rank lhs start n hLt hStart hDepth => ?_⟩
    · by_cases hRank : rank = .factor
      · subst hRank
        exact run_factor ih hDepth
      · exact run_rule ih hRank hStart hDepth
    · exact run_tail ih hStart hDepth hLt

/-! ## The rules are local -/

/-- A rule reads a slice of the tokens that spells an expression of its level, up to a token that it
does not go on with, and it reads every such slice. -/
theorem readAt_eq_ok_iff {rank : Rank} {tokens : List Token} {start stop : Nat} {e : Expr} :
    readAt rank tokens start = .ok (e, stop) ↔
      start < stop ∧ stop ≤ tokens.length ∧ Derives rank (tokens.extract start stop) e ∧
        rank.StopsAt tokens[stop]? := by
  rw [← List.head?_drop]
  constructor
  · intro h
    obtain ⟨⟨e', rest, hLt⟩, hRule, hPlace⟩ := map_eq_ok.1 h
    obtain ⟨stop', rfl, hStop, hLow, hHigh, hDerives⟩ := exists_stop hRule
    have hStops := Expr.stopsAt_of_rule hRule
    rw [place, hStop] at hPlace
    cases hPlace
    exact ⟨hLow, hHigh, hDerives, hStops⟩
  · rintro ⟨hLow, hHigh, hDerives, hStops⟩
    have hRest : tokens.drop stop = (tokens.drop start).drop (stop - start) := by
      rw [List.drop_drop, Nat.add_sub_cancel' hLow.le]
    have hSplit : tokens.extract start stop ++ tokens.drop stop = tokens.drop start := by
      rw [List.extract_eq_take_drop, hRest, List.take_append_drop]
    obtain ⟨hLt, hRule⟩ := Expr.rule_of_derives (Token.endOfAll tokens) hDerives hStops
    rw [readAt, ← hSplit, hRule, Except.map, place, length_sub_length_drop hHigh]

/-- **The rules get on, and look one token ahead.** From any token, the calls of the rule of a level
come to an end, nested no deeper than three for each token that is left and three more, and they
find what the rule finds. If that is an expression, then the cursor has moved on, not past the end
of the tokens. Wherever else the tokens that it moved over stand, among whichever others, the same
rule reads the same expression off them if and only if the token behind them is none of the
operators that its repetitions take. -/
theorem readAt_local (rank : Rank) (tokens : List Token) (start : Nat)
    (hStart : start ≤ tokens.length) :
    (∀ depth, 3 * (tokens.length - start) + 3 ≤ depth →
        (run tokens depth (.rule rank start)).run = some (readAt rank tokens start)) ∧
      ∀ e stop, readAt rank tokens start = .ok (e, stop) →
        start < stop ∧ stop ≤ tokens.length ∧
          ∀ (others : List Token) (start' : Nat),
            others.extract start' (start' + (stop - start)) = tokens.extract start stop →
              (readAt rank others start' = .ok (e, start' + (stop - start)) ↔
                rank.StopsAt others[start' + (stop - start)]?) := by
  constructor
  · intro depth hDepth
    have hLeast : leastDepth rank ≤ 3 := by cases rank <;> decide
    exact (enough tokens depth).rule rank start hStart (by omega)
  · intro e stop hRead
    obtain ⟨hLow, hHigh, hDerives, -⟩ := readAt_eq_ok_iff.1 hRead
    refine ⟨hLow, hHigh, fun others start' hSame => ?_⟩
    have hLength := congrArg List.length hSame
    rw [List.extract_eq_take_drop, List.extract_eq_take_drop, List.length_take, List.length_drop,
      List.length_take, List.length_drop] at hLength
    rw [readAt_eq_ok_iff, hSame]
    constructor
    · rintro ⟨-, -, -, hStops⟩
      exact hStops
    · intro hStops
      exact ⟨by omega, by omega, hDerives, hStops⟩

/-- A product of two numbers. -/
def twoThree : List Token := [⟨.number, "2", 2⟩, ⟨.operator, "*", 3⟩, ⟨.number, "3", 4⟩]

/-- The product in a sum of three terms. -/
def threeTerms : List Token :=
  [⟨.number, "1", 0⟩, ⟨.operator, "+", 1⟩] ++ twoThree ++ [⟨.operator, "-", 5⟩, ⟨.number, "4", 6⟩]

/-- From the second term on, the rule for products reads the product and stops at the difference. It
does so within parentheses as well, but not where the product goes on. -/
theorem readAt_local_product :
    (run threeTerms 18 (.rule .product 2)).run =
        some (.ok (.binary .mul (.leaf "2" 2) (.leaf "3" 4) 3, 5)) ∧
      readAt .product (⟨.paren, "(", 9⟩ :: twoThree ++ [⟨.paren, ")", 9⟩]) 1 =
        .ok (.binary .mul (.leaf "2" 2) (.leaf "3" 4) 3, 4) ∧
      readAt .product (twoThree ++ [⟨.operator, "/", 5⟩, ⟨.number, "4", 6⟩]) 0 ≠
        .ok (.binary .mul (.leaf "2" 2) (.leaf "3" 4) 3, 3) := by
  have hRead : readAt .product threeTerms 2 =
      .ok (.binary .mul (.leaf "2" 2) (.leaf "3" 4) 3, 5) := by cbv
  obtain ⟨hEnds, hLocal⟩ := readAt_local .product threeTerms 2 (by decide)
  obtain ⟨-, -, hElsewhere⟩ := hLocal _ _ hRead
  refine ⟨?_, ?_, ?_⟩
  · rw [hEnds 18 (by decide), hRead]
  · refine (hElsewhere _ 1 (by decide)).2 ?_
    rintro t ⟨⟩ op -
    rfl
  · intro hSame
    have hStops := (hElsewhere _ 0 (by decide)).1 hSame
    exact absurd (hStops ⟨.operator, "/", 5⟩ rfl .div (by decide)) (by decide)

end Cursor

end ReversePolish
