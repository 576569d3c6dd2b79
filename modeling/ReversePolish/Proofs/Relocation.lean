import Mathlib
import ReversePolish.Proofs.NodeOrder
import ReversePolish.Proofs.Unplaced

/-!
# Tokens at other offsets

Offsets are carried from tokens into nodes and errors, and nothing else is done with them. So what
tokens compile to can be found before it is known where they stand: number the tokens, and put the
true offsets in place of the numbers at the end.

* `Expr.move`: the expression with its offsets changed, as `Token.move` and `Error.move` change
  those of tokens and errors.
* `derives_move`: tokens that are moved spell the expression that is moved along with them.
* `Token.numbered`, `Token.place`: the tokens with their indices for offsets, and the offsets that
  belong to the indices. The index behind the last token belongs to the end of the tokens.
* `Expr.exists_ofTokens_numbered`: reading tokens finds an outcome in terms of indices, which is the
  same for all tokens of the same classes and texts.
* `lower_of_map_unplaced`, `lower_of_agreeing_tokens`: hence tokens that agree in classes and texts
  compile alike, or are refused with errors that differ only in their offsets.
-/

namespace ReversePolish

/-! ## Moving expressions -/

namespace Expr

/-- The expression with each of its offsets changed. -/
def move (f : Nat → Nat) : Expr → Expr
  | .leaf text offset => .leaf text (f offset)
  | .binary op lhs rhs offset => .binary op (lhs.move f) (rhs.move f) (f offset)

theorem unplaced_move (f : Nat → Nat) (e : Expr) : (e.move f).unplaced = e.unplaced := by
  induction e with
  | leaf text offset => rfl
  | binary op lhs rhs offset ihLhs ihRhs => rw [move, unplaced, unplaced, ihLhs, ihRhs]

theorem token_move (f : Nat → Nat) (e : Expr) : (e.move f).token = e.token.move f := by
  cases e <;> rfl

theorem inorder_move (f : Nat → Nat) (e : Expr) : (e.move f).inorder = e.inorder.map (move f) := by
  induction e with
  | leaf text offset => rfl
  | binary op lhs rhs offset ihLhs ihRhs =>
    rw [move, inorder, inorder, List.map_append, List.map_cons, ihLhs, ihRhs, move]

theorem zeroDivision?_move (f : Nat → Nat) (e : Expr) :
    (e.move f).zeroDivision? = e.zeroDivision?.map f := by
  induction e with
  | leaf text offset => rfl
  | binary op lhs rhs offset ihLhs ihRhs =>
    have hZero : (rhs.move f).isZero = rhs.isZero := isZero_of_unplaced_eq (rhs.unplaced_move f)
    rw [move, zeroDivision?, zeroDivision?, ihLhs, ihRhs, hZero]
    cases lhs.zeroDivision? with
    | some found => rfl
    | none =>
      cases rhs.zeroDivision? with
      | some found => rfl
      | none =>
        by_cases hDivision : op = .div ∧ rhs.isZero = true
        · simp [hDivision]
        · simp [hDivision]

end Expr

theorem derives_move (f : Nat → Nat) {rank : Rank} {tokens : List Token} {e : Expr}
    (h : Derives rank tokens e) : Derives rank (tokens.map (Token.move f)) (e.move f) := by
  induction h with
  | sum _ hRank hSymbol _ ihLeft ihRight =>
    rw [List.map_append, List.map_cons]
    exact .sum ihLeft hRank hSymbol ihRight
  | ofProduct _ ih => exact .ofProduct ih
  | product _ hRank hSymbol _ ihLeft ihRight =>
    rw [List.map_append, List.map_cons]
    exact .product ihLeft hRank hSymbol ihRight
  | ofFactor _ ih => exact .ofFactor ih
  | number hKind => exact .number hKind
  | paren hOpen _ hClose ih =>
    rw [List.map_cons, List.map_append, List.map_singleton]
    exact .paren hOpen ih hClose

/-! ## Indices in place of offsets -/

namespace Token

/-- The tokens with their indices for offsets. -/
def numbered (tokens : List Token) : List Token := tokens.mapIdx fun i t => { t with offset := i }

/-- The offset that belongs to an index: that of the token there, or the end of the tokens. -/
def place (tokens : List Token) (i : Nat) : Nat := tokens[i]?.elim (endOfAll tokens) offset

theorem getElem?_numbered (tokens : List Token) (i : Nat) :
    (numbered tokens)[i]? = tokens[i]?.map fun t => { t with offset := i } :=
  List.getElem?_mapIdx

theorem map_place_numbered (tokens : List Token) :
    (numbered tokens).map (move (place tokens)) = tokens := by
  apply List.ext_getElem?
  intro i
  rw [List.getElem?_map, getElem?_numbered]
  cases hGet : tokens[i]? with
  | none => rfl
  | some t => simp [move, place, hGet]

theorem map_unplaced_numbered (tokens : List Token) :
    (numbered tokens).map unplaced = tokens.map unplaced := by
  apply List.ext_getElem?
  intro i
  rw [List.getElem?_map, List.getElem?_map, getElem?_numbered, Option.map_map]
  rfl

theorem length_eq_of_map_unplaced {tokens others : List Token}
    (h : others.map unplaced = tokens.map unplaced) : others.length = tokens.length := by
  simpa using congrArg List.length h

theorem numbered_of_map_unplaced {tokens others : List Token}
    (h : others.map unplaced = tokens.map unplaced) : numbered others = numbered tokens := by
  apply List.ext_getElem?
  intro i
  have hAt : others[i]?.map unplaced = tokens[i]?.map unplaced := by
    rw [← List.getElem?_map, h, List.getElem?_map]
  -- Numbering a token looks at no more of it than what is left without its offset.
  have hNumber (t? : Option Token) : (t?.map fun t => { t with offset := i }) =
      (t?.map unplaced).map fun t => { t with offset := i } := by
    rw [Option.map_map]
    rfl
  rw [getElem?_numbered, getElem?_numbered, hNumber, hAt, ← hNumber]

theorem offset_of_getElem?_numbered {tokens : List Token} {i : Nat} {t : Token}
    (h : (numbered tokens)[i]? = some t) : t.offset = i := by
  rw [getElem?_numbered] at h
  obtain ⟨u, -, rfl⟩ := Option.map_eq_some_iff.1 h
  rfl

theorem increasing_numbered (tokens : List Token) :
    (numbered tokens).Pairwise fun t u => t.offset < u.offset := by
  rw [List.pairwise_iff_getElem]
  intro i j hi hj hLt
  rwa [offset_of_getElem?_numbered (List.getElem?_eq_getElem hi),
    offset_of_getElem?_numbered (List.getElem?_eq_getElem hj)]

/-- A numbered token gets back the offset of the token that has its number. -/
theorem getElem?_of_mem_numbered {tokens : List Token} {t : Token} (h : t ∈ numbered tokens) :
    tokens[t.offset]? = some (t.move (place tokens)) := by
  obtain ⟨i, hGet⟩ := List.mem_iff_getElem?.1 h
  rw [offset_of_getElem?_numbered hGet, ← map_place_numbered tokens, List.getElem?_map, hGet,
    map_place_numbered]
  rfl

end Token

/-! ## Reading numbered tokens -/

/-- The reader takes tokens as it takes their numbers, with the end behind the last number. -/
theorem Counter.run_eq_numbered (tokens : List Token) :
    run (Token.endOfAll tokens) start tokens =
      (run tokens.length start (Token.numbered tokens)).mapError
        (Error.move (Token.place tokens)) := by
  have hEnd : Token.place tokens tokens.length = Token.endOfAll tokens := by simp [Token.place]
  rw [← run_move, hEnd, Token.map_place_numbered]

/-- Reading tokens of given classes and texts has one outcome in terms of indices, into which the
offsets of the tokens are put. -/
theorem Expr.exists_ofTokens_numbered (tokens : List Token) :
    (∃ e, Derives .sum (Token.numbered tokens) e ∧
        ∀ others, others.map Token.unplaced = tokens.map Token.unplaced →
          ofTokens others = .ok (e.move (Token.place others))) ∨
      ∃ err : Error, ∀ others, others.map Token.unplaced = tokens.map Token.unplaced →
        ofTokens others = .error (err.move (Token.place others)) := by
  cases hRun : Counter.run tokens.length .start (Token.numbered tokens) with
  | error err =>
    refine Or.inr ⟨err, fun others hSame => ?_⟩
    have hOthers := Counter.run_eq_numbered others
    rw [Token.length_eq_of_map_unplaced hSame, Token.numbered_of_map_unplaced hSame,
      hRun] at hOthers
    exact Counter.ofTokens_error_of_run hOthers
  | ok _ =>
    have hTokens := Counter.run_eq_numbered tokens
    rw [hRun] at hTokens
    obtain ⟨a, hRead⟩ := Counter.exists_ofTokens_ok_of_run hTokens
    obtain ⟨e, hDerives, -⟩ :=
      derives_of_map_unplaced (derives_of_ofTokens hRead) (Token.map_unplaced_numbered tokens)
    refine Or.inl ⟨e, hDerives, fun others hSame => ?_⟩
    have hMoved := derives_move (Token.place others) hDerives
    rw [← Token.numbered_of_map_unplaced hSame, Token.map_place_numbered] at hMoved
    exact ofTokens_of_derives hMoved

/-- The nodes of an expression that numbered tokens spell stand for these tokens, wherever the
tokens are put. -/
theorem Expr.map_token_inorder_move {tokens : List Token} {e : Expr}
    (h : Derives .sum (Token.numbered tokens) e) :
    (e.move (Token.place tokens)).inorder.map (some ·.token) =
      (e.inorder.map (·.token.offset)).map (tokens[·]?) := by
  rw [inorder_move, List.map_map, List.map_map]
  apply List.map_congr_left
  intro node hNode
  have hToken : node.token ∈ Token.numbered tokens := by
    have hMem := List.mem_map_of_mem (f := token) hNode
    rw [map_token_inorder_of_derives h] at hMem
    exact List.mem_of_mem_filter hMem
  rw [Function.comp_apply, Function.comp_apply, token_move, Token.getElem?_of_mem_numbered hToken]

/-! ## Compiling tokens at other offsets -/

/-- What tokens compile to, in terms of indices. -/
theorem exists_lower_numbered (tokens : List Token) :
    ∃ outcome : Except Error Lowered,
      ∀ others, others.map Token.unplaced = tokens.map Token.unplaced →
        lower others = outcome.mapError (Error.move (Token.place others)) := by
  rcases Expr.exists_ofTokens_numbered tokens with ⟨e, -, hRead⟩ | ⟨err, hRead⟩
  · refine ⟨e.zeroDivision?.elim (.ok ⟨Outline.ofExpr e, e.pieces.foldl Rpn.emit ""⟩)
      fun i => .error (.divisionByZero i), fun others hSame => ?_⟩
    have hUnplaced := e.unplaced_move (Token.place others)
    rw [lower_of_derives (Expr.derives_of_ofTokens (hRead others hSame)), Expr.zeroDivision?_move,
      Outline.ofExpr_eq_iff.2 hUnplaced, Expr.pieces_of_unplaced_eq hUnplaced]
    cases e.zeroDivision? with
    | some i => rfl
    | none => rfl
  · exact ⟨.error err, fun others hSame => lower_of_error (hRead others hSame)⟩

theorem lower_of_map_unplaced {tokens others : List Token}
    (hSame : others.map Token.unplaced = tokens.map Token.unplaced) :
    (lower others).mapError Error.unplaced = (lower tokens).mapError Error.unplaced := by
  obtain ⟨outcome, hOutcome⟩ := exists_lower_numbered tokens
  rw [hOutcome others hSame, hOutcome tokens rfl]
  cases outcome with
  | error err => rfl
  | ok l => rfl

/-- The errors are placed at tokens of one index, or both at the end of their tokens. -/
theorem place_cases {tokens others : List Token}
    (h : others.map Token.unplaced = tokens.map Token.unplaced) (i : Nat) :
    (∃ t u, tokens[i]? = some t ∧ others[i]? = some u ∧ Token.place tokens i = t.offset ∧
        Token.place others i = u.offset) ∨
      Token.place tokens i = Token.endOfAll tokens ∧
        Token.place others i = Token.endOfAll others := by
  have hLength := Token.length_eq_of_map_unplaced h
  by_cases hi : i < tokens.length
  · have hGet := List.getElem?_eq_getElem hi
    have hGet' := List.getElem?_eq_getElem (hLength ▸ hi : i < others.length)
    exact Or.inl ⟨_, _, hGet, hGet', by simp [Token.place, hGet], by simp [Token.place, hGet']⟩
  · have hGet : tokens[i]? = none := List.getElem?_eq_none (by omega)
    have hGet' : others[i]? = none := List.getElem?_eq_none (by omega)
    exact Or.inr ⟨by simp [Token.place, hGet], by simp [Token.place, hGet']⟩

/-- **Offsets decide nothing.** Tokens that agree one by one in class and text compile to the same
outline and text, or they are refused with the same kind of error in the same words, raised at
tokens of one index or at the end of both. If the tokens spell an expression, so do the others; the
two expressions differ in offsets only, and each node stands for the tokens of one index. -/
theorem lower_of_agreeing_tokens {tokens others : List Token}
    (h : others.map Token.unplaced = tokens.map Token.unplaced) :
    ((∃ l, lower tokens = .ok l ∧ lower others = .ok l) ∨
        ∃ e e', lower tokens = .error e ∧ lower others = .error e' ∧
          e.stage = e'.stage ∧ e.kind = e'.kind ∧ e.message = e'.message ∧
          ((∃ (i : Nat) (t u : Token), tokens[i]? = some t ∧ others[i]? = some u ∧
              e.offset = t.offset ∧ e'.offset = u.offset) ∨
            e.offset = Token.endOfAll tokens ∧ e'.offset = Token.endOfAll others)) ∧
      ∀ a, Expr.ofTokens tokens = .ok a → ∃ (b : Expr) (indices : List Nat),
        Expr.ofTokens others = .ok b ∧
        a.unplaced = b.unplaced ∧ indices.Pairwise (· < ·) ∧
        a.inorder.map (some ·.token) = indices.map (tokens[·]?) ∧
        b.inorder.map (some ·.token) = indices.map (others[·]?) := by
  constructor
  · obtain ⟨outcome, hOutcome⟩ := exists_lower_numbered tokens
    have hTokens := hOutcome tokens rfl
    have hOthers := hOutcome others h
    cases outcome with
    | ok l => exact Or.inl ⟨l, hTokens, hOthers⟩
    | error err =>
      refine Or.inr ⟨_, _, hTokens, hOthers, rfl, rfl, rfl, ?_⟩
      rcases place_cases h err.offset with ⟨t, u, hGet, hGet', hPlace, hPlace'⟩ | hEnd
      · exact Or.inl ⟨err.offset, t, u, hGet, hGet', hPlace, hPlace'⟩
      · exact Or.inr hEnd
  · intro a hRead
    rcases Expr.exists_ofTokens_numbered tokens with ⟨e, hDerives, hAll⟩ | ⟨err, hAll⟩
    · rw [hAll tokens rfl] at hRead
      cases hRead
      have hDerivesOthers := hDerives
      rw [← Token.numbered_of_map_unplaced h] at hDerivesOthers
      refine ⟨e.move (Token.place others), e.inorder.map (·.token.offset), hAll others h, ?_, ?_,
        Expr.map_token_inorder_move hDerives, Expr.map_token_inorder_move hDerivesOthers⟩
      · rw [Expr.unplaced_move, Expr.unplaced_move]
      · have hSorted := (Token.increasing_numbered tokens).filter fun t => t.kind ≠ .paren
        rw [← Expr.map_token_inorder_of_derives hDerives, List.pairwise_map] at hSorted
        exact List.pairwise_map.2 hSorted
    · rw [hAll tokens rfl] at hRead
      cases hRead

/-- A division by zero whose tokens stand at offsets in no order. -/
def quotient : List Token :=
  [⟨.number, "1", 7⟩, ⟨.operator, "/", 3⟩, ⟨.number, "0", 5⟩]

/-- The same tokens at unrelated offsets. -/
def quotientElsewhere : List Token :=
  [⟨.number, "1", 0⟩, ⟨.operator, "/", 9⟩, ⟨.number, "0", 4⟩]

/-- Both are refused at their operator, and both spell the same quotient. -/
theorem lower_of_agreeing_tokens_quotient :
    lower quotient = .error (.divisionByZero 3) ∧
      lower quotientElsewhere = .error (.divisionByZero 9) ∧
      ∃ b, Expr.ofTokens quotientElsewhere = .ok b ∧
        (Expr.binary .div (.leaf "1" 7) (.leaf "0" 5) 3).unplaced = b.unplaced := by
  have hRead : Expr.ofTokens quotient = .ok (.binary .div (.leaf "1" 7) (.leaf "0" 5) 3) := by cbv
  have hLower : lower quotient = .error (.divisionByZero 3) := by
    rw [lower_of_derives (Expr.derives_of_ofTokens hRead)]
    cbv
  have hAgree : quotientElsewhere.map Token.unplaced = quotient.map Token.unplaced := rfl
  obtain ⟨hCompile, hTrees⟩ := lower_of_agreeing_tokens hAgree
  obtain ⟨b, -, hOther, hSame, -⟩ := hTrees _ hRead
  refine ⟨hLower, ?_, b, hOther, hSame⟩
  rw [hLower] at hCompile
  rcases hCompile with ⟨l, hOk, -⟩ | ⟨e, ⟨kind, offset, message⟩, hError, hOtherError, -, hKind,
    hMessage, hOffset⟩
  · cases hOk
  · cases hError
    cases hKind
    cases hMessage
    rcases hOffset with ⟨i, t, u, hGet, hGet', hPlace, hPlace'⟩ | ⟨hEnd, -⟩
    · rcases i with _ | _ | _ | i
      · cases hGet
        cases hPlace
      · cases hGet'
        rw [hOtherError]
        cases hPlace'
        rfl
      · cases hGet
        cases hPlace
      · cases hGet
    · cases hEnd

end ReversePolish
