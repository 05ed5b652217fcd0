import Reckon.Proofs.Yard.Parentheses
import Reckon.Proofs.Yard.Pieces

/-!
# Which error a malformed row of tokens has

Several things can be wrong with one row of tokens, and only one of them is told.  Which one it
is can be said by counting: the parentheses of the row say which parenthesis can be to blame, and
where they match, the numbers of operands and operators say what else can be.  An operator
without a side may come before any of these.

## Main definitions

* `SyntaxError.Outcome tokens r` — what a result says of the row of tokens.
* `SyntaxError.Classifies tokens r` — what the counts of a row say of its result, and what the
  result says of the row.

## Main results

* `SyntaxError.outcome_ofTokens` — what the result of the construction says of the row.
* `SyntaxError.classifies_ofTokens` — **the classification**, for every row of tokens.
-/

namespace Reckon.SyntaxError

open Token (Overclosed Matched FirstUnmatched LastUnclosed)
open Yard

/-- The results that a row of tokens can have, each with what it says of the row. -/
inductive Outcome (tokens : List Token) : Except SyntaxError Expr → Prop where
  | missing {t : Token} (ht : t ∈ Token.operators tokens) :
      Outcome tokens (.error ⟨.application, .missingOperand t⟩)
  | parenthesis {e : SyntaxError} (h : Verdict tokens (.error e)) : Outcome tokens (.error e)
  | empty (hm : Matched tokens) (hn : (Token.operands tokens).length = 0)
      (ho : (Token.operators tokens).length = 0) :
      Outcome tokens (.error ⟨.whole, .emptyExpression⟩)
  | whole {e : Expr} (hm : Matched tokens)
      (hn : (Token.operands tokens).length = (Token.operators tokens).length + 1) :
      Outcome tokens (.ok e)
  | apart {last : Span} (hm : Matched tokens)
      (hn : (Token.operators tokens).length + 2 ≤ (Token.operands tokens).length) :
      Outcome tokens (.error ⟨.whole, .missingOperator last⟩)

/-- The machine leaves a piece for each operand, less one for each operator. -/
theorem length_of_build_run {tokens : List Token} {pieces : List Piece}
    (hbuild : build [] (run tokens).trace = .ok pieces) (hresult : (run tokens).result = .ok ()) :
    pieces.length + (Token.operators tokens).length = (Token.operands tokens).length := by
  obtain ⟨hoperands, hoperators⟩ := (ends_run tokens).sent_of_ok hresult
  have hsent : (operatorTokens (run tokens).trace).length = (Token.operators tokens).length :=
    hoperators.length_eq
  have hlength := length_build _ _ _ hbuild
  rw [balance_eq, hoperands, hsent, List.length_nil] at hlength
  omega

theorem outcome_ofTokens (tokens : List Token) : Outcome tokens (Expr.ofTokens tokens) := by
  have hends := ends_run tokens
  have hverdict := verdict_run tokens
  rw [Expr.ofTokens_eq_fuse, fuse]
  cases hbuild : build [] (run tokens).trace with
  | error t =>
    exact .missing (hends.mem_operators (mem_operatorTokens_of_build hbuild))
  | ok pieces =>
    cases hresult : (run tokens).result with
    | error e =>
      rw [hresult] at hverdict
      exact .parenthesis hverdict
    | ok _ =>
      have hlength := length_of_build_run hbuild hresult
      rw [hresult] at hverdict
      obtain ⟨hm⟩ := hverdict
      rcases pieces with _ | ⟨whole, _ | ⟨second, below⟩⟩
      · -- nothing is left because nothing was sent on, so there is no operand
        have hoperands := (hends.sent_of_ok hresult).1
        rw [eq_nil_of_build hbuild] at hoperands
        have hn : (Token.operands tokens).length = 0 := by rw [← hoperands]; rfl
        exact .empty hm hn (by simp only [List.length_nil] at hlength; omega)
      · exact .whole hm (by simp only [List.length_singleton] at hlength; omega)
      · exact .apart hm (by simp only [List.length_cons] at hlength; omega)

variable {tokens : List Token} {result : Except SyntaxError Expr} {phase : Phase} {t : Token}

/-! ### Where the parentheses do not match -/

theorem Outcome.firstUnmatched (h : Outcome tokens (.error ⟨phase, .unmatchedClosing t⟩)) :
    FirstUnmatched tokens t := by
  cases h with
  | parenthesis h => cases h with
    | unmatched h => exact h

theorem Outcome.lastUnclosed (h : Outcome tokens (.error ⟨phase, .unclosedOpening t⟩)) :
    ¬Overclosed tokens ∧ LastUnclosed tokens t := by
  cases h with
  | parenthesis h => cases h with
    | unclosed hn _ h => exact ⟨hn, h⟩

/-- One of the parentheses is to blame, unless an operator is. -/
theorem Outcome.of_not_matched (h : Outcome tokens result) (hm : ¬Matched tokens) :
    (∃ t, result = .error ⟨.application, .missingOperand t⟩) ∨
      ∃ e, result = .error e ∧ Verdict tokens (.error e) := by
  cases h with
  | missing => exact .inl ⟨_, rfl⟩
  | parenthesis h => exact .inr ⟨_, rfl, h⟩
  | empty h => exact absurd h hm
  | whole h => exact absurd h hm
  | apart h => exact absurd h hm

theorem Outcome.of_overclosed (h : Outcome tokens result) (hover : Overclosed tokens) :
    ∃ t, result = .error ⟨.group, .unmatchedClosing t⟩ ∨
      result = .error ⟨.application, .missingOperand t⟩ := by
  rcases h.of_not_matched fun hm => hm.not_overclosed hover with ⟨t, ht⟩ | ⟨e, he, hverdict⟩
  · exact ⟨t, .inr ht⟩
  · cases hverdict with
    | unmatched _ => exact ⟨_, .inl he⟩
    | unclosed hn _ _ => exact absurd hover hn

theorem Outcome.of_unbalanced (h : Outcome tokens result) (hnot : ¬Overclosed tokens)
    (hne : Token.openings tokens ≠ Token.closings tokens) :
    ∃ t, result = .error ⟨.whole, .unclosedOpening t⟩ ∨
      result = .error ⟨.application, .missingOperand t⟩ := by
  rcases h.of_not_matched fun hm => hne hm.openings_eq with ⟨t, ht⟩ | ⟨e, he, hverdict⟩
  · exact ⟨t, .inr ht⟩
  · cases hverdict with
    | unmatched h => exact absurd h.overclosed hnot
    | unclosed _ _ _ => exact ⟨_, .inl he⟩

/-! ### Where the parentheses match -/

/-- The counts of operands and operators say what the result is, unless an operator lacks a
side. -/
theorem Outcome.of_matched (h : Outcome tokens result) (hm : Matched tokens) :
    (0 < (Token.operators tokens).length ∧
        ∃ t, result = .error ⟨.application, .missingOperand t⟩) ∨
      ((Token.operands tokens).length = 0 ∧ (Token.operators tokens).length = 0 ∧
        result = .error ⟨.whole, .emptyExpression⟩) ∨
      ((Token.operands tokens).length = (Token.operators tokens).length + 1 ∧
        ∃ e, result = .ok e) ∨
      ((Token.operators tokens).length + 2 ≤ (Token.operands tokens).length ∧
        ∃ last, result = .error ⟨.whole, .missingOperator last⟩) := by
  cases h with
  | missing ht => exact .inl ⟨List.length_pos_of_mem ht, _, rfl⟩
  | parenthesis h =>
    cases h with
    | unmatched h => exact absurd h.overclosed hm.not_overclosed
    | unclosed _ hlt _ => exact absurd hm.openings_eq (Nat.ne_of_gt hlt)
  | empty _ hn ho => exact .inr (.inl ⟨hn, ho, rfl⟩)
  | whole _ hn => exact .inr (.inr (.inl ⟨hn, _, rfl⟩))
  | apart _ hn => exact .inr (.inr (.inr ⟨hn, _, rfl⟩))

theorem Outcome.of_empty (h : Outcome tokens result) (hm : Matched tokens)
    (hn : (Token.operands tokens).length = 0) (ho : (Token.operators tokens).length = 0) :
    result = .error ⟨.whole, .emptyExpression⟩ := by
  rcases h.of_matched hm with ⟨hpos, -⟩ | ⟨-, -, h⟩ | ⟨hlt, -⟩ | ⟨hlt, -⟩
  · omega
  · exact h
  · omega
  · omega

theorem Outcome.of_le (h : Outcome tokens result) (hm : Matched tokens)
    (hle : (Token.operands tokens).length ≤ (Token.operators tokens).length)
    (hpos : 0 < (Token.operators tokens).length) :
    ∃ t, result = .error ⟨.application, .missingOperand t⟩ := by
  rcases h.of_matched hm with ⟨-, h⟩ | ⟨-, hzero, -⟩ | ⟨hlt, -⟩ | ⟨hlt, -⟩
  · exact h
  · omega
  · omega
  · omega

theorem Outcome.of_eq (h : Outcome tokens result) (hm : Matched tokens)
    (hn : (Token.operands tokens).length = (Token.operators tokens).length + 1) :
    (∃ e, result = .ok e) ∨ ∃ t, result = .error ⟨.application, .missingOperand t⟩ := by
  rcases h.of_matched hm with ⟨-, h⟩ | ⟨hzero, -, -⟩ | ⟨-, h⟩ | ⟨hlt, -⟩
  · exact .inr h
  · omega
  · exact .inl h
  · omega

theorem Outcome.of_ge (h : Outcome tokens result) (hm : Matched tokens)
    (hn : (Token.operators tokens).length + 2 ≤ (Token.operands tokens).length) :
    (∃ last, result = .error ⟨.whole, .missingOperator last⟩) ∨
      ∃ t, result = .error ⟨.application, .missingOperand t⟩ := by
  rcases h.of_matched hm with ⟨-, h⟩ | ⟨hzero, -, -⟩ | ⟨hlt, -⟩ | ⟨-, h⟩
  · exact .inr h
  · omega
  · omega
  · exact .inl h

theorem Outcome.of_emptyExpression (h : Outcome tokens (.error ⟨phase, .emptyExpression⟩)) :
    Matched tokens ∧ (Token.operands tokens).length = 0 ∧
      (Token.operators tokens).length = 0 := by
  cases h with
  | parenthesis h => cases h
  | empty hm hn ho => exact ⟨hm, hn, ho⟩

theorem Outcome.mem_of_missingOperand
    (h : Outcome tokens (.error ⟨phase, .missingOperand t⟩)) :
    t ∈ tokens ∧ ∃ op, t.role = .operator op := by
  cases h with
  | missing ht => exact Token.mem_operators.mp ht
  | parenthesis h => cases h

/-! ### The classification -/

/-- How the result of a row of tokens and the counts of the row go together. -/
structure Classifies (tokens : List Token) (result : Except SyntaxError Expr) : Prop where
  /-- A closing parenthesis without a partner is the first that is one too many. -/
  unmatched : ∀ phase t, result = .error ⟨phase, .unmatchedClosing t⟩ → FirstUnmatched tokens t
  /-- An opening parenthesis without a partner is the last that is never closed, and no closing
  one came too early. -/
  unclosed : ∀ phase t, result = .error ⟨phase, .unclosedOpening t⟩ →
    ¬Overclosed tokens ∧ LastUnclosed tokens t
  /-- Too many closing parentheses in some beginning are an error. -/
  of_overclosed : Overclosed tokens →
    ∃ t, result = .error ⟨.group, .unmatchedClosing t⟩ ∨
      result = .error ⟨.application, .missingOperand t⟩
  /-- And so are parentheses that stay open. -/
  of_unbalanced : ¬Overclosed tokens → Token.openings tokens ≠ Token.closings tokens →
    ∃ t, result = .error ⟨.whole, .unclosedOpening t⟩ ∨
      result = .error ⟨.application, .missingOperand t⟩
  /-- Nothing but matching parentheses is an empty expression. -/
  of_empty : Matched tokens → (Token.operands tokens).length = 0 →
    (Token.operators tokens).length = 0 → result = .error ⟨.whole, .emptyExpression⟩
  /-- With too few operands some operator lacks one. -/
  of_le : Matched tokens → (Token.operands tokens).length ≤ (Token.operators tokens).length →
    0 < (Token.operators tokens).length →
      ∃ t, result = .error ⟨.application, .missingOperand t⟩
  /-- With one operand more than operators the expression is whole, unless an operator comes too
  early. -/
  of_eq : Matched tokens →
    (Token.operands tokens).length = (Token.operators tokens).length + 1 →
      (∃ e, result = .ok e) ∨ ∃ t, result = .error ⟨.application, .missingOperand t⟩
  /-- With too many operands some of them are not joined. -/
  of_ge : Matched tokens →
    (Token.operators tokens).length + 2 ≤ (Token.operands tokens).length →
      (∃ last, result = .error ⟨.whole, .missingOperator last⟩) ∨
        ∃ t, result = .error ⟨.application, .missingOperand t⟩
  /-- Only nothing but matching parentheses is an empty expression. -/
  empty : ∀ phase, result = .error ⟨phase, .emptyExpression⟩ →
    Matched tokens ∧ (Token.operands tokens).length = 0 ∧ (Token.operators tokens).length = 0
  /-- What lacks an operand is an operator of the row. -/
  missing : ∀ phase t, result = .error ⟨phase, .missingOperand t⟩ →
    t ∈ tokens ∧ ∃ op, t.role = .operator op

/-- **The classification of malformed rows**: which error a row of tokens has, told by counting its
parentheses, operands and operators. -/
theorem classifies_ofTokens (tokens : List Token) : Classifies tokens (Expr.ofTokens tokens) := by
  have h := outcome_ofTokens tokens
  refine ⟨?_, ?_, h.of_overclosed, h.of_unbalanced, h.of_empty, h.of_le, h.of_eq, h.of_ge, ?_, ?_⟩
  -- the clauses about one given error are read off the outcome that has it
  · intro phase t herror
    rw [herror] at h
    exact h.firstUnmatched
  · intro phase t herror
    rw [herror] at h
    exact h.lastUnclosed
  · intro phase herror
    rw [herror] at h
    exact h.of_emptyExpression
  · intro phase t herror
    rw [herror] at h
    exact h.mem_of_missingOperand

/-- Closing applies the operators inside, so an operator without a side is told before the
parenthesis that has no partner. -/
example : Expr.ofTokens [⟨"a", ⟨0, 1⟩⟩, ⟨"+", ⟨1, 2⟩⟩, ⟨")", ⟨2, 3⟩⟩] =
    .error ⟨.application, .missingOperand ⟨"+", ⟨1, 2⟩⟩⟩ := rfl

end Reckon.SyntaxError
