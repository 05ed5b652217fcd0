import Reckon.Token.Basic

/-!
# Malformed expressions

What can be wrong with a row of tokens, where it is noticed, and how it is told.

## Main definitions

* `SyntaxError.Cause` — the five things that can be wrong.
* `SyntaxError.Phase` — what was being put together when it was noticed.
* `SyntaxError.message` — the sentence shown to the user.
* `SyntaxError.span` — the place in the source to point at.
-/

namespace Reckon

/-- What is wrong with a row of tokens. -/
inductive SyntaxError.Cause where
  /-- An operator has fewer than two sides. -/
  | missingOperand (operator : Token)
  /-- Two finished expressions stand beside each other; `last` covers the second. -/
  | missingOperator (last : Span)
  /-- A closing parenthesis has no partner. -/
  | unmatchedClosing (paren : Token)
  /-- An opening parenthesis has no partner. -/
  | unclosedOpening (paren : Token)
  /-- There is no operand at all. -/
  | emptyExpression
  deriving DecidableEq, Repr

/-- What was being put together when an error was noticed. -/
inductive SyntaxError.Phase where
  | application
  | group
  | whole
  deriving DecidableEq, Repr

/-- An error in a row of tokens. -/
structure SyntaxError where
  phase : SyntaxError.Phase
  cause : SyntaxError.Cause
  deriving DecidableEq, Repr

namespace SyntaxError

/-- The cause in words. -/
def Cause.text : Cause → String
  | missingOperand operator => "missing operand for " ++ operator.quoted
  | missingOperator _ => "missing operator"
  | unmatchedClosing paren => "unmatched " ++ paren.quoted
  | unclosedOpening paren => "unclosed " ++ paren.quoted
  | emptyExpression => "empty expression"

/-- The phase in words. -/
def Phase.text : Phase → String
  | application => "an operator application"
  | group => "the end of a parenthesised expression"
  | whole => "the end of the expression"

/-- The sentence shown to the user. -/
def message (e : SyntaxError) : String :=
  e.cause.text ++ " when parsing " ++ e.phase.text

/-- The place to point at.  An empty expression has none, and points at the start. -/
def span (e : SyntaxError) : Span :=
  match e.cause with
  | .missingOperand token | .unmatchedClosing token | .unclosedOpening token => token.span
  | .missingOperator last => last
  | .emptyExpression => .nowhere

end SyntaxError

end Reckon
