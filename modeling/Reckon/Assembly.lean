import Reckon.Expr.Basic
import Reckon.Log
import Reckon.SyntaxError
import Reckon.Traced

/-!
# Assembling an expression from its tokens

The tokens are taken one by one.  Operands wait on one stack until an operator joins two
of them; operators and opening parentheses wait on another until what stands to their right
is known.  An operator is applied as soon as a later one does not bind more tightly, when
the parenthesis around it closes, or at the end.

## Main definitions

* `Assembly` — an expression under construction: the two stacks.
* `Assembly.step` — takes one token.
* `Assembly.close` — applies the operators back to an opening parenthesis, or to the start.
* `Assembly.ofTokens` — takes a row of tokens, starting from nothing.
* `Expr.assemble` — the whole construction, with the record of its steps.
* `Expr.ofTokens` — the tree of a row of tokens, or what is wrong with it.
-/

namespace Reckon

/-- A finished part of an expression and the source it covers. -/
structure Piece where
  expr : Expr
  span : Span
  deriving DecidableEq, Repr

/-- What waits for its right-hand side. -/
inductive Waiting where
  /-- An opening parenthesis, or the start of the expression, which has no token. -/
  | opening (paren : Option Token)
  /-- An operator whose right side is not finished. -/
  | operator (op : Operator) (token : Token)
  deriving DecidableEq, Repr

/-- An expression under construction.  Both stacks have their top first. -/
structure Assembly where
  operands : List Piece
  waiting : List Waiting
  deriving DecidableEq, Repr

namespace Assembly

/-- One thing done while an expression is assembled. -/
inductive Record where
  /-- An operand was put aside. -/
  | operand (token : Token)
  /-- An operator was put aside. -/
  | operator (token : Token)
  /-- An operator was applied to its two sides. -/
  | apply (lhs : Expr) (op : Operator) (rhs : Expr)
  /-- The whole expression is finished. -/
  | finished (expr : Expr)
  deriving DecidableEq, Repr

/-- How detailed the telling of a record is. -/
def Record.level : Record → Log.Level
  | operand _ | operator _ | apply _ _ _ => .trace
  | finished _ => .debug

/-- A record in words. -/
def Record.text : Record → String
  | operand token => "Push operand " ++ token.quoted
  | operator token => "Push operator " ++ token.quoted
  | apply lhs op rhs =>
    "Reduce " ++ lhs.infixText ++ " " ++ op.symbol ++ " " ++ rhs.infixText
  | finished expr => "Built expression tree " ++ expr.infixText

/-- The line that a record is logged in. -/
def Record.line (record : Record) : Log.Line := ⟨record.level, record.text⟩

/-- A step of the assembly: it keeps a record and may find an error. -/
abbrev Recorded := Traced Record SyntaxError

/-- Nothing taken yet: only the start of the expression is open. -/
def start : Assembly := ⟨[], [.opening none]⟩

/-- Applies an operator to the two topmost operands.  The right side is the upper one,
since it was put aside last. -/
def applyTop (op : Operator) (token : Token) : List Piece → Recorded (List Piece)
  | rhs :: lhs :: operands => do
    Traced.note (.apply lhs.expr op rhs.expr)
    pure (⟨.binary lhs.expr op rhs.expr, lhs.span.cover rhs.span⟩ :: operands)
  | _ => Traced.fail ⟨.application, .missingOperand token⟩

/-- Applies the waiting operators that come before an operator of fixity `incoming`. -/
def yieldTo (incoming : Fixity) : List Waiting → List Piece → Recorded Assembly
  | .operator op token :: waiting, operands =>
    if op.fixity.precedes incoming then do
      let operands ← applyTop op token operands
      yieldTo incoming waiting operands
    else pure ⟨operands, .operator op token :: waiting⟩
  | waiting, operands => pure ⟨operands, waiting⟩

/-- Applies the waiting operators back to the opening that `closer` belongs to, and removes
that opening.  A `closer` of `none` is the end of the expression, and belongs to its
start. -/
def close (closer : Option Token) : List Waiting → List Piece → Recorded Assembly
  | .operator op token :: waiting, operands => do
    let operands ← applyTop op token operands
    close closer waiting operands
  | .opening (some paren) :: waiting, operands =>
    match closer with
    | some _ => pure ⟨operands, waiting⟩
    | none => Traced.fail ⟨.whole, .unclosedOpening paren⟩
  | .opening none :: waiting, operands =>
    match closer with
    | some paren => Traced.fail ⟨.group, .unmatchedClosing paren⟩
    | none => pure ⟨operands, waiting⟩
  | [], operands =>
    match closer with
    | some paren => Traced.fail ⟨.group, .unmatchedClosing paren⟩
    -- never taken: the start waits below all else until the end removes it, so something always
    -- waits before that (`Course.waiting_ne_nil`)
    | none => pure ⟨operands, []⟩

/-- Takes one token. -/
def step (a : Assembly) (token : Token) : Recorded Assembly :=
  match token.role with
  | .operand => do
    Traced.note (.operand token)
    pure ⟨⟨.operand token.text, token.span⟩ :: a.operands, a.waiting⟩
  | .opening => pure ⟨a.operands, .opening (some token) :: a.waiting⟩
  | .closing => close (some token) a.waiting a.operands
  | .operator op => do
    let a ← yieldTo op.fixity a.waiting a.operands
    Traced.note (.operator token)
    pure ⟨a.operands, .operator op token :: a.waiting⟩

/-- Takes a row of tokens from left to right, starting from nothing. -/
def ofTokens (tokens : List Token) : Recorded Assembly :=
  tokens.foldlM step start

/-- The expression, when exactly one operand is left. -/
def conclude : List Piece → Recorded Expr
  | [whole] => do
    Traced.note (.finished whole.expr)
    pure whole.expr
  | [] => Traced.fail ⟨.whole, .emptyExpression⟩
  | last :: _ :: _ => Traced.fail ⟨.whole, .missingOperator last.span⟩

end Assembly

/-- Assembles the expression that a row of tokens spells, and records the steps. -/
def Expr.assemble (tokens : List Token) : Assembly.Recorded Expr := do
  let a ← Assembly.ofTokens tokens
  let a ← Assembly.close none a.waiting a.operands
  Assembly.conclude a.operands

/-- The expression that a row of tokens spells, or what is wrong with them. -/
def Expr.ofTokens (tokens : List Token) : Except SyntaxError Expr :=
  (Expr.assemble tokens).result

end Reckon
