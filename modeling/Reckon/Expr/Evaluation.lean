import Reckon.Expr.Basic
import Reckon.Log
import Reckon.Numeral
import Reckon.Traced

/-!
# Partial evaluation

Every operator whose two sides come out as numbers is replaced by its value, from the
leaves up.  A variable has no value, so the operators above one stay, with their sides
evaluated as far as possible.  A division of two numbers by zero stops the evaluation.

## Main definitions

* `Operator.apply` — the value of an operator on doubles.
* `Expr.Event` — what is worth telling about an evaluation.
* `Expr.evaluate` — the evaluation, with its events in order.
* `Expr.solve` — the evaluated tree and its variables, or the division that stopped it.

## Main results

* `Expr.unbound_append` — the variables are told in the order in which they are met.
-/

namespace Reckon

/-- The value of an operator on doubles. -/
def Operator.apply : Operator → Float → Float → Float
  | add, x, y => x + y
  | subtract, x, y => x - y
  | multiply, x, y => x * y
  | divide, x, y => x / y
  | power, x, y => x.pow y

/-- A division of two numbers by zero, as the tree that it is. -/
structure DivisionByZero where
  division : Expr
  deriving DecidableEq, Repr

/-- The sentence shown to the user. -/
def DivisionByZero.message (d : DivisionByZero) : String :=
  "division by zero in " ++ d.division.infixText

namespace Expr

/-- What is worth telling about an evaluation. -/
inductive Event where
  /-- An operand is not a number. -/
  | unbound (name : String)
  /-- An operator was replaced by its value. -/
  | evaluated (expr : Expr) (value : String)
  deriving DecidableEq, Repr

/-- How detailed the telling of an event is. -/
def Event.level : Event → Log.Level
  | unbound _ => .info
  | evaluated _ _ => .debug

/-- An event in words. -/
def Event.text : Event → String
  | unbound name => "Unbound variable " ++ name
  | evaluated expr value => "Evaluated " ++ expr.infixText ++ " to " ++ value

/-- The line that an event is logged in. -/
def Event.line (event : Event) : Log.Line := ⟨event.level, event.text⟩

/-- The name of the variable that an event tells of, if it does. -/
def Event.unbound? : Event → Option String
  | unbound name => some name
  | evaluated _ _ => none

/-- An evaluation: it tells of its events and may meet a division by zero. -/
abbrev Evaluating := Traced Event DivisionByZero

/-- The value of a leaf that is a number. -/
def value? : Expr → Option Float
  | operand text => Numeral.read? text
  | binary _ _ _ => none

/-- Applies an operator to evaluated sides: to their values if they are numbers, and as
part of the tree if not.  Both zeros count as zero. -/
def join (lhs : Expr) (op : Operator) (rhs : Expr) : Evaluating Expr :=
  match lhs.value?, rhs.value? with
  | some x, some y =>
    if op = .divide ∧ y == 0 then Traced.fail ⟨binary lhs op rhs⟩
    else do
      let value := Numeral.write (op.apply x y)
      Traced.note (.evaluated (binary lhs op rhs) value)
      pure (operand value)
  | _, _ => pure (binary lhs op rhs)

/-- Evaluates a tree as far as possible: the left side, the right side, the operator. -/
def evaluate : Expr → Evaluating Expr
  | operand text => do
    if (Numeral.read? text).isNone then Traced.note (.unbound text)
    pure (operand text)
  | binary lhs op rhs => do
    let lhs ← lhs.evaluate
    let rhs ← rhs.evaluate
    join lhs op rhs

/-- The names of the variables that a list of events tells of, in order. -/
def unbound (events : List Event) : List String :=
  events.filterMap Event.unbound?

/-- An evaluated tree together with the variables that were met, once for each place where
they stand, from left to right. -/
structure Solution where
  expr : Expr
  unbound : List String
  deriving DecidableEq, Repr

/-- Evaluates a tree as far as possible. -/
def solve (e : Expr) : Except DivisionByZero Solution :=
  let evaluation := e.evaluate
  evaluation.result.map fun expr => ⟨expr, unbound evaluation.trace⟩

/-- Evaluates a tree a number of times over, each time what the time before left, and
gives all the answers.  The first division by zero is the last answer. -/
def solveRepeatedly : Nat → Expr → List (Except DivisionByZero Solution)
  | 0, _ => []
  | n + 1, e =>
    match e.solve with
    | .ok solved => .ok solved :: solveRepeatedly n solved.expr
    | .error d => [.error d]

/-- How a variable is told to the user. -/
def unboundNotice (name : String) : String := "Unbound variable: " ++ name

theorem unbound_append (as bs : List Event) :
    unbound (as ++ bs) = unbound as ++ unbound bs :=
  List.filterMap_append

end Expr

end Reckon
