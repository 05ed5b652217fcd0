import Reckon.Operator

/-!
# Expression trees

Leaves are operands, kept as they were written, and inner nodes are operators, so no
operator is ever without its two sides.

## Main definitions

* `Expr` — the trees.
* `Expr.operands` — the texts of the leaves from left to right.
* `Expr.infixText` — the written form with the operator between its sides and every
  application in parentheses.

## Main results

* `Expr.infixText_operand`, `Expr.infixText_binary` — what the infix form looks like.
-/

namespace Reckon

/-- An arithmetic expression. -/
inductive Expr where
  /-- A number or a name, as it was written. -/
  | operand (text : String)
  /-- An operator applied to a left and a right side. -/
  | binary (lhs : Expr) (op : Operator) (rhs : Expr)
  deriving DecidableEq, Repr, Inhabited

namespace Expr

/-- The texts of the leaves, from left to right. -/
def operands : Expr → List String
  | operand text => [text]
  | binary lhs _ rhs => lhs.operands ++ rhs.operands

/-- Writes a tree behind a text: every operator between its two sides, and every
application in parentheses. -/
def writeInfix : Expr → String → String
  | operand text, front => front ++ text
  | binary lhs op rhs, front =>
    rhs.writeInfix (lhs.writeInfix (front ++ "(") ++ " " ++ op.symbol ++ " ") ++ ")"

/-- The infix form of a tree, such as `(x + (2 * 3))`. -/
def infixText (e : Expr) : String := e.writeInfix ""

theorem writeInfix_eq (e : Expr) (front : String) :
    e.writeInfix front = front ++ e.infixText := by
  induction e generalizing front with
  | operand text => simp [infixText, writeInfix]
  | binary lhs op rhs ihl ihr =>
    simp only [infixText, writeInfix, String.empty_append]
    rw [ihr, ihl, ihr (lhs.writeInfix "(" ++ " " ++ op.symbol ++ " "), ihl "("]
    simp only [String.append_assoc]

@[simp] theorem infixText_operand (text : String) : (operand text).infixText = text := by
  simp [infixText, writeInfix]

theorem infixText_binary (lhs rhs : Expr) (op : Operator) :
    (binary lhs op rhs).infixText =
      "(" ++ lhs.infixText ++ " " ++ op.symbol ++ " " ++ rhs.infixText ++ ")" := by
  simp only [infixText, writeInfix, String.empty_append]
  rw [writeInfix_eq rhs, writeInfix_eq lhs]
  rfl

@[simp] theorem operands_operand (text : String) : (operand text).operands = [text] := rfl

@[simp] theorem operands_binary (lhs rhs : Expr) (op : Operator) :
    (binary lhs op rhs).operands = lhs.operands ++ rhs.operands := rfl

end Expr

end Reckon
